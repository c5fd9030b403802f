import RouteScaffold.Proofs.Journal.Making
import RouteScaffold.Proofs.Journal.Undoing

/-!
# Recording Ahead

A command that makes something tells its intent what it is about to do before it does
it: the path below which everything is made, and what the one file holds that it is going
to change. The document of the intent is exchanged in a single write. So wherever the
command is stopped, what it has done so far is on record in the document that is there,
and the document of an intent that knows less is as good as long as nothing more has been
done.

An exception can be raised at any point of a plan, also in the course of a step. The intent
is then saved with its words, as it is in memory; and what it says there may be ahead of what
its document says.

Making a folder makes the folders before it, and they are not on record. That does no
harm, since only files are of interest; but none of them must be where a file is to be
put back.

## Main definitions

* `Tree.Heeds`: A write that makes something and leaves room for the files of snapshots.
* `Journal.Recorded`: A disk on which everything that was done is on record.
* `Journal.Breaks`, `Journal.Broken`: An exception that is raised while a plan is followed.
* `Journal.Follows`: What holds wherever a plan is left.
* `Journal.Announced`: A step that does what an intent has on record.

## Theorems

* `Between.after`: What is done as it was recorded is on record.
* `stays_save_telling`: An intent that learns something is saved in one write.
* `follows_nil`, `follows_cons`, `stays_track_following`: Where a plan can be left, step by
  step.
* `take_record`, `take_snapshot`, `stays_settle_recorded`: How an intent learns something,
  and how it is settled.
-/

namespace RouteScaffold

open Job Disk RouteScaffold.Tree Location

namespace Tree

/-- A write that makes something, files in certain places only, and no folder where a
    snapshot has its file. -/
def Heeds (here : Location) (ss : List Snapshot) (P : Location → Prop) (t : Tree) (w : Write) : Prop :=
  t.Fills here P w ∧ ∀ s ∈ ss, w ≠ .put (s.place here) .folder

variable {t : Tree} {w : Write} {here : Location} {ss ss' : List Snapshot} {P Q : Location → Prop}

theorem Heeds.mono (h : t.Heeds here ss P w) (hss : ∀ s ∈ ss', s ∈ ss) (hP : ∀ l, P l → Q l) :
    t.Heeds here ss' Q w :=
  ⟨h.1.mono hP, fun s hs => h.2 s (hss s hs)⟩

/-- A write that makes a file makes no folder. -/
theorem Fills.heeds (h : t.Fills here P w) (hfile : ∃ loc c, w = .put loc (.file c)) :
    t.Heeds here ss P w := by
  refine ⟨h, fun s _ heq => ?_⟩
  rcases hfile with ⟨loc, c, hw⟩
  rw [hw] at heq
  exact absurd (Write.put.inj heq).2 (by simp)

end Tree

namespace Job

/-- What a job stays within, one that does the same does. -/
theorem Stays.of_on_eq {α : Type} {I : Disk → Prop} {x y : Job α} {d : Disk} (h : Stays I x d)
    (hon : y.on d = x.on d) : Stays I y d := by
  rwa [Stays, hon]

variable {here : Location} {p : Path} {P : Location → Prop} {ss : List Snapshot}

theorem heeds_folders (h : ∀ s ∈ ss, Clear here p (s.place here)) :
    Does here (Heeds here ss P) (folders p) :=
  does_folders fun names hnames d loc hhere hv => by
    subst hhere
    have hfind := (vacant_eq hv).1
    refine ⟨fills_of_find hfind (admits_vacant hv) (by simp), fun s hs heq => h s hs names hnames ?_⟩
    rw [← spot_of_find hfind]
    exact (Write.put.inj heq).1

theorem heeds_writeText {t : Text} (h : unwalkable? p = none → P (spot here p)) :
    Does here (Heeds here ss P) (writeText p t) :=
  Does.mono ((fills_writeText h).and (does_writeText fun _ loc _ _ => ⟨loc, .text t, rfl⟩))
    fun _ _ hw => hw.1.heeds hw.2

theorem heeds_replace {t : Text} (h : unwalkable? p = none → P (spot here p)) :
    Does here (Heeds here ss P) (replace p t) :=
  Does.mono ((fills_replace h).and (does_replace fun _ loc _ _ => ⟨loc, .text t, rfl⟩))
    fun _ _ hw => hw.1.heeds hw.2

theorem heeds_newFile {t : Text} (hclear : ∀ s ∈ ss, Clear here p.parent (s.place here))
    (h : unwalkable? p = none → P (spot here p)) : Does here (Heeds here ss P) (newFile p t) :=
  does_isThere.bind fun _ => .refuse fun _ => Does.bind (heeds_folders hclear) fun _ => heeds_writeText h

theorem heeds_edit {e : Edit} (hclear : ∀ s ∈ ss, Clear here p.parent (s.place here))
    (h : unwalkable? p = none → P (spot here p)) : Does here (Heeds here ss P) (edit p e) :=
  does_edit (heeds_folders hclear) (heeds_writeText h) fun _ => heeds_replace h

end Job

namespace Journal

variable {d e e' : Disk} {doc : Location} {i k : Intent} {ss : List Snapshot} {cs : List Text} {j : Journal}
  {P : Location → Prop} {ws : List Write}

/-! ### What is on record -/

/-- What is done as it was recorded is on record. -/
theorem Between.after (h : Between d doc i ss cs e) (hsound : d.Sound)
    (hP : ∀ l, P l → l ≠ doc → (∃ s ∈ ss, s.place d.here = l) ∨ ∃ c ∈ cs, d.Covers c l)
    (hws : e.tree.Runs (Heeds d.here i.snapshots P) ws) : Between d doc i ss cs (e.after ws) := by
  have hfills : e.tree.Runs (Fills d.here P) ws := hws.mono fun _ _ hw => hw.1
  have hhere := h.isFolder_here hsound
  rw [h.here] at hhere
  refine ⟨(after_here e ws).trans h.here, ?_, fun l hl => ?_, fun l hl => ?_, fun s hs => ?_⟩
  · rw [after_tree]
    exact (hfills.closed h.closed hhere).1
  · rw [after_tree]
    exact hfills.makes_of_fills.keeps_folder (h.folders l hl)
  · rw [after_tree]
    -- Where something may be written, it is on record; elsewhere the disk is as it was.
    by_cases hl' : P l
    · exact Or.inr (hP l hl' hl)
    · exact (h.files l hl).imp_left fun hsame => hsame.trans (hfills.sameFile hl')
  · rw [after_tree]
    refine Runs.no_folder (hws.mono fun t w hw => ⟨?_, hw.2 s hs⟩) (h.plain s hs)
    exact hw.1.1.1

/-- A disk on which everything that lies between it and another one is on record in an
    intent, which is there. -/
structure Recorded (j : Journal) (d : Disk) (i : Intent) (e : Disk) : Prop
    extends Between d (spot d.here (j.file i.id)) i i.snapshots i.created e where
  saved : e.tree.get? (spot d.here (j.file i.id)) = some (.file (.text i.document))

/-- A place that an intent has on record, and at which its document is not. -/
def OnRecord (j : Journal) (d : Disk) (i : Intent) (l : Location) : Prop :=
  l ≠ spot d.here (j.file i.id) ∧ ((∃ s ∈ i.snapshots, s.place d.here = l) ∨ ∃ c ∈ i.created, d.Covers c l)

theorem Recorded.after (h : j.Recorded d i e) (hsound : d.Sound)
    (hws : e.tree.Runs (Heeds d.here i.snapshots (j.OnRecord d i)) ws) : j.Recorded d i (e.after ws) := by
  refine ⟨h.toBetween.after hsound (fun l hl _ => hl.2) hws, ?_⟩
  have hfills : e.tree.Runs (Fills d.here (j.OnRecord d i)) ws := hws.mono fun _ _ hw => hw.1
  rw [after_tree]
  exact (hfills.sameFile (fun hl => hl.1 rfl) _).mpr h.saved

/-- Places that saving an intent makes no folder at, and no file. -/
def Frees (j : Journal) (here : Location) (i : Intent) : Prop :=
  ∀ s ∈ i.snapshots, j.Keeps i.id here (s.place here)

/-- Saving an intent makes folders, and then exchanges its document in one write. -/
theorem save_cases (hkeeps : j.keeps = true) (hfrees : j.Frees e.here i) :
    ∃ ws, e.tree.Runs (Heeds e.here i.snapshots fun _ => False) ws
      ∧ ((∃ f, (j.save i).on e = (.error f, e.after ws))
        ∨ (e.after ws).tree.Fills e.here (· = spot e.here (j.file i.id))
            (.put (spot e.here (j.file i.id)) (.file (.text i.document)))
          ∧ (j.save i).on e = (.ok (), (e.after ws).made
            (.put (spot e.here (j.file i.id)) (.file (.text i.document))))) := by
  have hfolders : Does e.here (Heeds e.here i.snapshots fun _ => False) (folders j.folder) :=
    heeds_folders fun s hs => (hfrees s hs).folder
  rcases hfolders e rfl with ⟨ws, hd, hws⟩
  refine ⟨ws, hws, ?_⟩
  rcases hrun : (folders j.folder).on e with ⟨r, d'⟩
  rw [hrun] at hd
  dsimp only at hd
  subst hd
  rw [save, hkeeps, if_pos rfl]
  cases r with
  | error f => exact Or.inl ⟨f, on_bind_error hrun⟩
  | ok u =>
      -- The folders are there, so the document is exchanged, or refused.
      rw [on_bind_ok hrun, on_replace]
      cases hreplace : (e.after ws).replaceable (j.file i.id) with
      | error g => exact Or.inl ⟨_, rfl⟩
      | ok loc =>
          right
          have hfind := (replaceable_eq hreplace).1
          have hfills : (e.after ws).tree.Fills (e.after ws).here (· = loc) (.put loc (.file (.text i.document))) :=
            fills_of_find hfind (admits_replaceable hreplace) fun _ _ => rfl
          have hloc := spot_of_find hfind
          rw [after_here] at hfills hloc
          subst hloc
          exact ⟨hfills, rfl⟩

section Saving

variable (hsound : d.Sound) (hkeeps : j.keeps = true)
include hsound hkeeps

/-- An intent is saved in one write: before it everything is as it was but for folders,
    and behind it everything is on record. -/
theorem stays_save_telling {I : Disk → Prop} (hfrees : j.Frees d.here k)
    (hbetween : Between d (spot d.here (j.file k.id)) k k.snapshots k.created e)
    (hI : ∀ ws, e.tree.Runs (Heeds d.here k.snapshots fun _ => False) ws → I (e.after ws)) :
    Stays (fun e' => I e' ∨ j.Recorded d k e') (j.save k) e
      ∧ ∀ r e', (j.save k).on e = (r, e') → match r with
        | .error _ => I e'
        | .ok _ => j.Recorded d k e' := by
  have hhere := hbetween.here
  rcases save_cases hkeeps (hhere ▸ hfrees) with ⟨ws, hws, hrun⟩
  rw [hhere] at hws hrun
  have hI' : ∀ us, us <+: ws → I (e.after us) := by
    rintro us ⟨vs, rfl⟩
    exact hI us (Runs.append.mp hws).1
  -- Where the document is refused, or is not exchanged yet, folders are all that is new.
  rcases hrun with ⟨f, hrun⟩ | ⟨hfills, hrun⟩
  · refine ⟨⟨ws, by rw [hrun], fun us hus => Or.inl (hI' us hus)⟩, fun r e' he => ?_⟩
    rw [hrun, Prod.mk.injEq] at he
    rw [← he.1, ← he.2]
    exact hI' ws (List.prefix_refl _)
  · have hput : Between d (spot d.here (j.file k.id)) k k.snapshots k.created
        ((e.after ws).after [.put (spot d.here (j.file k.id)) (.file (.text k.document))]) :=
      (hbetween.after hsound (P := fun _ => False) (by simp) hws).after hsound
        (P := (· = spot d.here (j.file k.id))) (fun l hl hne => absurd hl hne)
        (.singleton (hfills.heeds ⟨_, _, rfl⟩))
    have hrecorded : j.Recorded d k ((e.after ws).made
        (.put (spot d.here (j.file k.id)) (.file (.text k.document)))) :=
      ⟨hput, (get?_apply_put hfills.1.1 _).trans (if_pos rfl)⟩
    refine ⟨⟨ws ++ [.put (spot d.here (j.file k.id)) (.file (.text k.document))], ?_, fun us hus => ?_⟩,
      fun r e' he => ?_⟩
    · rw [hrun, after_append]
      rfl
    -- All the writes have been made, or some before the document.
    · rcases List.prefix_concat_iff.mp hus with rfl | hus
      · rw [after_append]
        exact Or.inr hrecorded
      · exact Or.inl (hI' us hus)
    · rw [hrun, Prod.mk.injEq] at he
      rw [← he.1, ← he.2]
      exact hrecorded

/-- An intent that is there learns something. Until it is saved, what it says in memory is
    as true as what its document says. -/
theorem stays_save_recorded (h : j.Recorded d i e) (hss : ∀ s ∈ i.snapshots, s ∈ k.snapshots) (hfrees : j.Frees d.here k)
    (hbetween : Between d (spot d.here (j.file k.id)) k k.snapshots k.created e) :
    Stays (fun e' => (j.Recorded d i e' ∧ Between d (spot d.here (j.file k.id)) k k.snapshots k.created e')
        ∨ j.Recorded d k e') (j.save k) e
      ∧ ∀ r e', (j.save k).on e = (r, e') → match r with
        | .error _ => j.Recorded d i e' ∧ Between d (spot d.here (j.file k.id)) k k.snapshots k.created e'
        | .ok _ => j.Recorded d k e' :=
  stays_save_telling hsound hkeeps hfrees hbetween fun _ hws =>
    ⟨h.after hsound (hws.mono fun _ _ hw => hw.mono hss fun _ hl => absurd hl id),
      hbetween.after hsound (fun _ hl => hl.elim) hws⟩

end Saving

/-! ### Plans that are followed as jobs -/

/-- Following a plan, as a job that does not fail. -/
def following (j : Journal) (i : Intent) (plan : List Step) : Job (Intent × Except Fault Bool) :=
  liftM (j.follow i plan)

theorem on_following (j : Journal) (i : Intent) (plan : List Step) (e : Disk) :
    (j.following i plan).on e
      = (.ok ((j.followed i plan e).1, (j.followed i plan e).2.1), (j.followed i plan e).2.2) := rfl

/-- What an intent is told in a step, before it is saved. -/
def told (i : Intent) : Step → Job Intent
  | .record p => return i.withCreated p.text
  | .snapshot p => withSnapshotOf i p
  | .snapshotIfPresent p => do if ← isThere p then withSnapshotOf i p else return i
  | _ => return i

/-- An exception is raised while a plan is followed, between two steps or in the course of
    one. The intent that is in memory then may know what has not been saved yet. -/
inductive Breaks (j : Journal) : Intent → List Step → Disk → Intent → Disk → Prop
  | between (i : Intent) (plan : List Step) (e : Disk) : Breaks j i plan e i e
  | within {i k : Intent} {s : Step} (plan : List Step) {e e' : Disk} (told : (told i s).on e = (.ok k, e))
      (stopped : (j.take i s).Stops e e') : Breaks j i (s :: plan) e k e'
  | behind {i k l : Intent} {s : Step} {plan : List Step} {c : Bool} {e e₁ e' : Disk}
      (taken : (j.take i s).on e = (.ok (k, c), e₁)) (rest : Breaks j k plan e₁ l e') : Breaks j i (s :: plan) e l e'

/-- What a command leaves in which an exception is raised behind the saving of its intent:
    the intent is saved once more, with the words of the exception, and that may be stopped
    in turn. -/
def Broken (j : Journal) (now : Timestamp) (verb : Text) (args : List Text) (mode : Mode) (plan : List Step)
    (d e : Disk) : Prop :=
  ∃ d₀ k d₁ message, (j.save (.start verb args mode now)).on d = (.ok (), d₀)
    ∧ j.Breaks (.start verb args mode now) plan d₀ k d₁ ∧ (j.save (k.withError message)).Stops d₁ e

/-- Wherever a plan is left, some intent and the disk are as is said, and so are those
    that it ends with. Where an exception is raised, the intent in memory is so. -/
def Follows (j : Journal) (T S : Intent → Disk → Prop) (i : Intent) (plan : List Step) (e : Disk) : Prop :=
  Stays (fun e' => ∃ k, T k e') (j.following i plan) e
    ∧ (∀ k r e', (j.following i plan).on e = (.ok (k, r), e') → T k e')
    ∧ ∀ k e', j.Breaks i plan e k e' → S k e'

section Follows

variable {T S : Intent → Disk → Prop} {s : Step} {plan : List Step}

theorem follows_nil (h : T i e) (hS : S i e) : j.Follows T S i [] e := by
  have hon : (j.following i []).on e = (.ok (i, .ok false), e) := rfl
  refine ⟨stays_unchanged hon ⟨i, h⟩, fun k r e' he => ?_, fun k e' hbreaks => ?_⟩
  · rw [hon, Prod.mk.injEq, Except.ok.injEq, Prod.mk.injEq] at he
    rw [← he.1.1, ← he.2]
    exact h
  · cases hbreaks
    exact hS

theorem follows_cons (hS : S i e) (hs : Stays (fun e' => ∃ k, T k e') (j.take i s) e)
    (hwithin : ∀ k e', (told i s).on e = (.ok k, e) → (j.take i s).Stops e e' → S k e')
    (herror : ∀ f e', (j.take i s).on e = (.error f, e') → T i e')
    (hrest : ∀ k c e', (j.take i s).on e = (.ok (k, c), e') → j.Follows T S k plan e') :
    j.Follows T S i (s :: plan) e := by
  rcases hs with ⟨ws, hws, hT⟩
  rcases htake : (j.take i s).on e with ⟨r, d'⟩
  rw [htake] at hws
  dsimp only at hws
  have hfollowed := followed_cons j i s plan e
  rw [htake] at hfollowed
  -- The places where a plan breaks off: before this step, within it, or further behind.
  have hbreaks : ∀ k e', j.Breaks i (s :: plan) e k e' → S k e' := by
    intro k e' hbreaks
    cases hbreaks with
    | between => exact hS
    | within _ told stopped => exact hwithin k e' told stopped
    | behind taken rest => exact (hrest _ _ _ taken).2.2 k e' rest
  cases r with
  | error f =>
      refine ⟨⟨ws, ?_, hT⟩, fun k r e' he => ?_, hbreaks⟩
      · rw [on_following, hfollowed]
        exact hws
      · rw [on_following, hfollowed, Prod.mk.injEq, Except.ok.injEq, Prod.mk.injEq] at he
        rw [← he.1.1, ← he.2]
        exact herror f d' htake
  | ok x =>
      rcases hrest x.1 x.2 d' htake with ⟨⟨vs, hvs, hT'⟩, hend, -⟩
      refine ⟨⟨ws ++ vs, ?_, fun us hus => ?_⟩, fun k r e' he => ?_, hbreaks⟩
      · rw [after_append, ← hws, ← hvs, on_following, hfollowed]
        rfl
      · rcases hus with ⟨rest, hrest'⟩
        -- A stop within this step, or within those behind it.
        rcases List.append_eq_append_iff.mp hrest' with ⟨zs, hws', -⟩ | ⟨zs, rfl, hvs'⟩
        · exact hT us ⟨zs, hws'.symm⟩
        · rw [after_append, ← hws]
          exact hT' zs ⟨rest, hvs'.symm⟩
      · rw [on_following, hfollowed, Prod.mk.injEq, Except.ok.injEq, Prod.mk.injEq] at he
        refine hend k (j.followed x.1 plan d').2.1 e' ?_
        rw [on_following, ← he.1.1, ← he.2]

/-- A command that keeps to what is said when it saves its intent, at each step of its
    plan, and at its end. -/
theorem stays_track_following {I : Disk → Prop} {now : Timestamp} {verb : Text} {args : List Text} {mode : Mode}
    (hbegin : Stays I (j.save (.start verb args mode now)) e)
    (hfollow : ∀ e', (j.save (.start verb args mode now)).on e = (.ok (), e') →
      j.Follows T S (.start verb args mode now) plan e')
    (hTI : ∀ k e', T k e' → I e') (hsettle : ∀ k r e', T k e' → Stays I (j.settle k r) e') :
    Stays I (j.track now verb args mode plan) e := by
  have htrack : (j.track now verb args mode plan).on e = (j.save (.start verb args mode now) >>= fun _ =>
      j.following (.start verb args mode now) plan >>= fun x => j.settle x.1 x.2).on e := by
    rw [on_track, on_bind]
    rcases (j.save (.start verb args mode now)).on e with ⟨r, e₁⟩
    cases r <;> rfl
  refine Stays.of_on_eq (stays_bind hbegin fun u e₁ hsave => ?_) htrack
  rcases hfollow e₁ hsave with ⟨hstays, hend, -⟩
  exact stays_bind (hstays.mono fun e' ⟨k, hk⟩ => hTI k e' hk) fun x e₂ hx =>
    hsettle x.1 x.2 e₂ (hend x.1 x.2 e₂ hx)

end Follows

/-! ### Steps -/

/-- A step that tells an intent nothing, and does what the intent has on record. -/
def Announced (j : Journal) (d : Disk) (i : Intent) : Step → Prop
  | .folder p => ∀ s ∈ i.snapshots, Clear d.here p (s.place d.here)
  | .newFile p _ | .edit p _ => (∀ s ∈ i.snapshots, Clear d.here p.parent (s.place d.here))
      ∧ (unwalkable? p = none → j.OnRecord d i (spot d.here p))
  | .file p _ => unwalkable? p = none → j.OnRecord d i (spot d.here p)
  | _ => False

section Steps

variable {T S : Intent → Disk → Prop} {s : Step} {xs ys : List Step} {p made : Path} {snap : Snapshot}

theorem heeds_take (hs : j.Announced d i s) (k : Intent) :
    Does d.here (Heeds d.here i.snapshots (j.OnRecord d i)) (j.take k s) := by
  cases s with
  | folder p => exact (heeds_folders hs).bind fun _ => does_pure _
  | newFile p t => exact (heeds_newFile hs.1 hs.2).bind fun _ => does_pure _
  | file p t => exact (heeds_writeText hs).bind fun _ => does_pure _
  | edit p e => exact (heeds_edit hs.1 hs.2).bind fun _ => does_pure _
  | record p => exact hs.elim
  | snapshot p => exact hs.elim
  | snapshotIfPresent p => exact hs.elim
  | editIfPresent p e => exact hs.elim
  | remove p missingOk => exact hs.elim

/-- A step that tells an intent nothing leaves it as it is. -/
theorem take_announced {k' : Intent} {c : Bool} (hs : j.Announced d i s)
    (h : (j.take k s).on e = (.ok (k', c), e')) : k' = k := by
  -- The steps that tell nothing return the intent that they were given.
  have hdone : ∀ {α : Type} (x : Job α) (f : α → Bool),
      (x >>= fun a => pure (k, f a) : Job (Intent × Bool)).on e = (.ok (k', c), e') → k' = k := by
    intro α x f h
    rcases on_bind_eq_ok.mp h with ⟨a, d', -, hpure⟩
    rw [on_pure, Prod.mk.injEq, Except.ok.injEq, Prod.mk.injEq] at hpure
    exact hpure.1.1.symm
  -- All the others are excluded.
  cases s with
  | folder p => exact hdone (folders p) (fun _ => false) h
  | newFile p t => exact hdone (newFile p t) (fun _ => false) h
  | file p t => exact hdone (writeText p t) (fun _ => false) h
  | edit p e => exact hdone (Job.edit p e) id h
  | record p => exact hs.elim
  | snapshot p => exact hs.elim
  | snapshotIfPresent p => exact hs.elim
  | editIfPresent p e => exact hs.elim
  | remove p missingOk => exact hs.elim

/-- An intent is told nothing in such a step. -/
theorem told_announced {k' : Intent} (hs : j.Announced d i s) (h : (told k s).on e = (.ok k', e')) : k' = k := by
  cases s with
  | record p => exact hs.elim
  | snapshot p => exact hs.elim
  | snapshotIfPresent p => exact hs.elim
  | editIfPresent p e => exact hs.elim
  | remove p missingOk => exact hs.elim
  | _ => exact (Except.ok.inj (Prod.mk.inj h).1).symm

/-- Steps that do what is on record, with others behind them. -/
theorem follows_announced (hsound : d.Sound) (hxs : ∀ s ∈ xs, j.Announced d i s) (h : j.Recorded d i e)
    (hT : ∀ e', j.Recorded d i e' → T i e' ∧ S i e')
    (hys : ∀ e', j.Recorded d i e' → j.Follows T S i ys e') : j.Follows T S i (xs ++ ys) e := by
  induction xs generalizing e with
  | nil => exact hys e h
  | cons s xs ih =>
      have hdoes := heeds_take (hxs s (by simp)) i
      rw [← h.here] at hdoes
      -- What the step writes is on record, so the record stays what it is.
      have hafter : ∀ ws, e.tree.Runs (Heeds e.here i.snapshots (j.OnRecord d i)) ws → j.Recorded d i (e.after ws) :=
        fun ws hws => h.after hsound (h.here ▸ hws)
      have hstays : Stays (j.Recorded d i) (j.take i s) e := hdoes.stays hafter
      have hlast : ∀ {r : Except Fault (Intent × Bool)} {e' : Disk}, (j.take i s).on e = (r, e') → j.Recorded d i e' :=
        fun hr => by
          have := hstays.last
          rwa [hr] at this
      rw [List.cons_append]
      refine follows_cons (hT e h).2 (hstays.mono fun e' he' => ⟨i, (hT e' he').1⟩) (fun k e' htold hstop => ?_)
        (fun f e' he => (hT e' (hlast he)).1) fun k c e' he => ?_
      · rw [told_announced (hxs s (by simp)) htold]
        exact (hT e' (hstays.stops hstop)).2
      · rw [take_announced (hxs s (by simp)) he]
        exact ih (fun s' hs' => hxs s' (by simp [hs'])) (hlast he)

section Learning

variable (hsound : d.Sound) (hkeeps : j.keeps = true) (h : j.Recorded d i e)
include hsound hkeeps h

/-- An intent learns that a path is about to be made. -/
theorem take_record (hfrees : j.Frees d.here i) :
    Stays (fun e' => j.Recorded d i e' ∨ j.Recorded d (i.withCreated made.text) e') (j.take i (.record made)) e
      ∧ (∀ f e', (j.take i (.record made)).on e = (.error f, e') → j.Recorded d i e')
      ∧ ∀ k c e', (j.take i (.record made)).on e = (.ok (k, c), e') →
        k = i.withCreated made.text ∧ j.Recorded d k e' := by
  -- A path on record more only allows more.
  have hbetween : Between d (spot d.here (j.file i.id)) i i.snapshots (i.created ++ [made.text]) e :=
    h.mono (fun _ hs => hs) fun c hc => List.mem_append_left _ hc
  rcases stays_save_recorded (k := i.withCreated made.text) hsound hkeeps h (fun _ hs => hs) hfrees
    ⟨hbetween.here, hbetween.closed, hbetween.folders, hbetween.files, hbetween.plain⟩ with ⟨hstays, hend⟩
  refine ⟨stays_bind (hstays.mono fun e' he => he.imp_left And.left) fun u e' he =>
    stays_of_looks (looks_pure _) (Or.inr (hend _ e' he)), fun f e' he => ?_, fun k c e' he => ?_⟩
  -- Only saving can fail.
  · rcases on_bind_eq_error.mp he with he | ⟨u, e₁, -, hpure⟩
    · exact (hend _ e' he).1
    · exact absurd hpure (by simp)
  · rcases on_bind_eq_ok.mp he with ⟨u, e₁, hsave, hpure⟩
    rw [on_pure, Prod.mk.injEq, Except.ok.injEq, Prod.mk.injEq] at hpure
    rw [← hpure.1.1, ← hpure.2]
    exact ⟨rfl, hend _ e₁ hsave⟩

end Learning

/-- A file that an intent does not know yet is looked at. -/
theorem take_snapshot_eq (hunknown : i.hasSnapshot p.text = false) :
    j.take i (.snapshot p) = snapshotOf p >>= fun s => j.learn (i.withSnapshot s) := by
  rw [take, learnSnapshot, withSnapshotOf, hunknown, if_neg Bool.false_ne_true, if_neg Bool.false_ne_true,
    bind_assoc]
  simp only [pure_bind]

theorem told_snapshot (hunknown : i.hasSnapshot p.text = false) (h : (told i (.snapshot p)).on e = (.ok k, e)) :
    ∃ s, k = i.withSnapshot s ∧ (snapshotOf p).on e = (.ok s, e) := by
  rw [told, withSnapshotOf, hunknown, if_neg Bool.false_ne_true] at h
  rcases on_bind_eq_ok.mp h with ⟨s, e₁, hs, hpure⟩
  have he₁ := (looks_snapshotOf p).ok hs
  subst he₁
  rw [on_pure, Prod.mk.injEq, Except.ok.injEq] at hpure
  exact ⟨s, hpure.1.symm, hs⟩

/-- What a snapshot says of a path that leads somewhere. -/
theorem snapshotOf_ok {loc : Location} (hfind : e.find p = .ok loc) (h : (snapshotOf p).on e = (.ok snap, e')) :
    snap.file = p.text ∧ (snap.content = none ∧ e.tree.get? loc = none
      ∨ ∃ c t, snap.content = some t ∧ e.tree.get? loc = some (.file c) ∧ c.read = .ok t) := by
  rcases on_bind_eq_ok.mp h with ⟨there, e₁, hthere, hread⟩
  have he₁ := (looks_isThere p).ok hthere
  subst he₁
  -- A file that is not there is told as such; one that is there is told with its text.
  cases there with
  | false =>
      rw [if_neg Bool.false_ne_true, on_pure, Prod.mk.injEq, Except.ok.injEq] at hread
      rw [← hread.1]
      refine ⟨rfl, Or.inl ⟨rfl, ?_⟩⟩
      by_contra hsome
      exact absurd ((isThere_iff hthere).mpr ⟨loc, hfind, hsome⟩) (by simp)
  | true =>
      rw [if_pos rfl] at hread
      rcases on_bind_eq_ok.mp hread with ⟨t, e₂, hraw, hpure⟩
      rw [on_pure, Prod.mk.injEq, Except.ok.injEq] at hpure
      rcases (readRaw_ok hraw).2 with ⟨loc', c, hfind', hfile, hc⟩
      rw [hfind, Except.ok.injEq] at hfind'
      subst hfind'
      rw [← hpure.1]
      exact ⟨rfl, Or.inr ⟨c, t, rfl, hfile, hc⟩⟩

/-- A snapshot of a file that is as it was says what the file held before. -/
theorem original_of_snapshotOf {cs : List Text} (hsound : d.Sound) (h : Between d doc i [] cs e) (hplain : p.Plain)
    (hsighted : d.Sighted p) (hdoc : spot d.here p ≠ doc) (hout : ∀ c ∈ cs, ¬ d.Covers c (spot d.here p))
    (hsnap : (snapshotOf p).on e = (.ok snap, e')) :
    snap.file = p.text ∧ snap.Original d ∧ e.tree.get? (snap.place d.here) ≠ some .folder := by
  rcases hsighted with hfind | hlong
  · have hsame : d.tree.SameFile e.tree (spot d.here p) := by
      rcases h.files _ hdoc with hsame | ⟨s, hs, -⟩ | ⟨c, hc, hcovers⟩
      · exact hsame
      · exact absurd hs (by simp)
      · exact absurd hcovers (hout c hc)
    rcases snapshotOf_ok (h.find hfind) hsnap with ⟨hfile, hcontent⟩
    have hpath : Path.ofText snap.file = p := by rw [hfile, hplain.ofText_text]
    have hplace : snap.place d.here = spot d.here p := by rw [Snapshot.place, hpath]
    rw [Snapshot.Original, hplace, hpath]
    rcases hcontent with ⟨hcontent, hnone⟩ | ⟨c, t, hcontent, hthere, hread⟩
    · refine ⟨hfile, ⟨hfind, ?_⟩, by rw [hnone]; simp⟩
      rw [hcontent, Option.map_none]
      -- There was neither a file, which would be there still, nor a folder.
      cases hentry : d.tree.get? (spot d.here p) with
      | none => rfl
      | some entry =>
          cases entry with
          | folder => exact absurd (h.folders _ hentry) (by rw [hnone]; simp)
          | file c => exact absurd ((hsame c).mpr hentry) (by rw [hnone]; simp)
    · have hthere' := (hsame c).mp hthere
      refine ⟨hfile, ⟨hfind, ?_⟩, by rw [hthere]; simp⟩
      rw [hcontent, Option.map_some, hthere', hsound.spelled _ c t hthere' hread]
  · have hfail : (snapshotOf p).on e = (.error (.system .nameTooLong p.text), e) :=
      on_bind_error (isThere_of_too_long hlong)
    rw [hfail] at hsnap
    exact absurd hsnap (by simp)

section Snapshots

variable (hsound : d.Sound) (hkeeps : j.keeps = true) (h : j.Recorded d i e) (hnone : i.snapshots = [])
  (hplain : p.Plain) (hsighted : d.Sighted p)
  (hkeep : d.tree.get? (spot d.here p) ≠ some .folder → j.Keeps i.id d.here (spot d.here p))
  (hdoc : spot d.here p ≠ spot d.here (j.file i.id)) (hout : ∀ c ∈ i.created, ¬ d.Covers c (spot d.here p))
include hsound hkeeps h hnone hplain hsighted hkeep hdoc hout

/-- An intent without snapshots learns what a file was found to hold. -/
theorem take_snapshot_of_ok (hsnap : (snapshotOf p).on e = (.ok snap, e)) : snap.file = p.text ∧ snap.Original d
      ∧ Stays (fun e' => (j.Recorded d i e' ∧ Between d (spot d.here (j.file i.id)) (i.withSnapshot snap)
          (i.withSnapshot snap).snapshots i.created e') ∨ j.Recorded d (i.withSnapshot snap) e')
        (j.take i (.snapshot p)) e
      ∧ ∀ r e', (j.take i (.snapshot p)).on e = (r, e') → match r with
        | .error _ => j.Recorded d i e'
        | .ok (k, _) => k = i.withSnapshot snap ∧ j.Recorded d k e' := by
  have hbetween : Between d (spot d.here (j.file i.id)) i [] i.created e := hnone ▸ h.toBetween
  have honly : (i.withSnapshot snap).snapshots = [snap] := by rw [Intent.withSnapshot, hnone, List.nil_append]
  rcases original_of_snapshotOf hsound hbetween hplain hsighted hdoc hout hsnap with ⟨hfile, horiginal, hfree⟩
  have hplace : snap.place d.here = spot d.here p := by rw [Snapshot.place, hfile, hplain.ofText_text]
  -- The one snapshot is of this path, where no folder is, and no document is put there.
  have hfrees : j.Frees d.here (i.withSnapshot snap) := by
    intro s hs
    rw [honly, List.mem_singleton] at hs
    rw [hs, hplace]
    refine hkeep fun hfolder => hfree ?_
    rw [hplace]
    exact h.folders _ hfolder
  have hnext : Between d (spot d.here (j.file i.id)) (i.withSnapshot snap) (i.withSnapshot snap).snapshots i.created e := by
    refine ⟨h.here, h.closed, h.folders,
      (h.toBetween.mono (fun s hs => List.mem_append_left _ hs) fun _ hc => hc).files, fun s hs => ?_⟩
    rw [honly, List.mem_singleton] at hs
    rw [hs]
    exact hfree
  rcases stays_save_recorded (k := i.withSnapshot snap) hsound hkeeps h (fun s hs => List.mem_append_left _ hs)
    hfrees hnext with ⟨hstays, hend⟩
  have hon : (j.take i (.snapshot p)).on e = (j.learn (i.withSnapshot snap)).on e := by
    rw [take_snapshot_eq (by rw [Intent.hasSnapshot, hnone]; rfl), on_bind_ok hsnap]
  refine ⟨hfile, horiginal, Stays.of_on_eq (stays_bind hstays fun u e' he =>
    stays_of_looks (looks_pure _) (Or.inr (hend _ e' he))) hon, fun r e' he => ?_⟩
  rw [hon] at he
  -- Saving is the only part that writes.
  cases r with
  | error f =>
      rcases on_bind_eq_error.mp he with he | ⟨u, e₁, -, hpure⟩
      · exact (hend _ e' he).1
      · exact absurd hpure (by simp)
  | ok x =>
      rcases on_bind_eq_ok.mp he with ⟨u, e₁, hsave, hpure⟩
      rw [on_pure, Prod.mk.injEq, Except.ok.injEq] at hpure
      rw [← hpure.1, ← hpure.2]
      exact ⟨rfl, hend _ e₁ hsave⟩

/-- An intent without snapshots learns what a file holds. -/
theorem take_snapshot :
    Stays (fun e' => j.Recorded d i e' ∨ ∃ s : Snapshot, s.file = p.text ∧ s.Original d ∧ j.Recorded d (i.withSnapshot s) e')
        (j.take i (.snapshot p)) e
      ∧ (∀ f e', (j.take i (.snapshot p)).on e = (.error f, e') → j.Recorded d i e')
      ∧ ∀ k c e', (j.take i (.snapshot p)).on e = (.ok (k, c), e') →
        ∃ s : Snapshot, k = i.withSnapshot s ∧ s.file = p.text ∧ s.Original d ∧ j.Recorded d k e' := by
  rcases (looks_snapshotOf p).cases e with ⟨f, hf⟩ | ⟨s, hs⟩
  -- Where the file cannot be told of, nothing is written.
  · have hon : (j.take i (.snapshot p)).on e = (.error f, e) := by
      rw [take_snapshot_eq (by rw [Intent.hasSnapshot, hnone]; rfl)]
      exact on_bind_error hf
    refine ⟨stays_unchanged hon (Or.inl h), fun f' e' he => ?_, fun k c e' he => ?_⟩
    · rw [hon, Prod.mk.injEq] at he
      exact he.2 ▸ h
    · rw [hon] at he
      exact absurd he (by simp)
  · rcases take_snapshot_of_ok hsound hkeeps h hnone hplain hsighted hkeep hdoc hout hs with
      ⟨hfile, horiginal, hstays, hend⟩
    refine ⟨hstays.mono fun e' he' => he'.imp And.left fun hrecorded => ⟨s, hfile, horiginal, hrecorded⟩,
      fun f e' he => hend _ e' he, fun k c e' he => ?_⟩
    rcases hend _ e' he with ⟨rfl, hrecorded⟩
    exact ⟨s, rfl, hfile, horiginal, hrecorded⟩

end Snapshots

/-- Dropping an intent removes its document, or does nothing. -/
theorem drop_cases (e : Disk) : (∃ r, (j.drop i).on e = (r, e))
    ∨ (j.drop i).on e = (.ok (), e.made (.erase (spot e.here (j.file i.id)))) := by
  have hon := on_unlinkIfPresent (j.file i.id) e
  cases hopened : e.opened (j.file i.id) with
  | ok x =>
      right
      rw [hopened] at hon
      rw [← spot_of_find (opened_eq hopened).1]
      exact hon
  | error f =>
      left
      rw [hopened] at hon
      cases f
      all_goals exact ⟨_, hon⟩

/-- An intent is settled: it is dropped, or it learns the fault that stopped its command. -/
theorem stays_settle_recorded (hsound : d.Sound) (hkeeps : j.keeps = true) (h : j.Recorded d i e)
    (hfrees : j.Frees d.here i) (r : Except Fault Bool) :
    Stays (fun e' => (∀ c, e'.tree.get? (spot d.here (j.file i.id)) ≠ some (.file c)) ∨ j.Recorded d i e'
      ∨ ∃ message, j.Recorded d (i.withError message) e') (j.settle i r) e := by
  cases r with
  -- The fault is kept with the intent, in one write.
  | error f =>
      have hbetween : Between d (spot d.here (j.file i.id)) (i.withError f.message) i.snapshots i.created e :=
        ⟨h.here, h.closed, h.folders, h.files, h.plain⟩
      rcases stays_save_recorded (k := i.withError f.message) hsound hkeeps h (fun _ hs => hs) hfrees hbetween
        with ⟨hstays, hend⟩
      exact stays_bind (hstays.mono fun e' he => Or.inr (he.imp And.left fun he' => ⟨_, he'⟩)) fun u e' he =>
        stays_of_looks (looks_fail _) (Or.inr (Or.inr ⟨_, hend _ e' he⟩))
  | ok changed =>
      have hroot : spot d.here (j.file i.id) ≠ [] := fun hnil => by
        have hsaved := h.saved
        rw [hnil, get?_root] at hsaved
        exact absurd hsaved (by simp)
      -- Dropping the intent erases the document, or leaves the disk as it is.
      rcases drop_cases (j := j) (i := i) e with ⟨r, hon⟩ | hon
      · refine stays_bind (stays_unchanged hon (Or.inr (Or.inl h))) fun u e' he => ?_
        rw [hon, Prod.mk.injEq] at he
        exact stays_of_looks (looks_pure _) (Or.inr (Or.inl (he.2 ▸ h)))
      · rw [h.here] at hon
        have hgone : ∀ c, (e.made (.erase (spot d.here (j.file i.id)))).tree.get? (spot d.here (j.file i.id))
            ≠ some (.file c) := fun c hc => by
          rw [show (e.made (.erase (spot d.here (j.file i.id)))).tree = e.tree.apply (.erase (spot d.here (j.file i.id)))
            from rfl, get?_apply_erase, if_pos ⟨rfl, hroot⟩] at hc
          exact absurd hc (by simp)
        refine stays_bind (stays_once hon (Or.inr (Or.inl h)) (Or.inl hgone)) fun u e' he => ?_
        rw [hon, Prod.mk.injEq] at he
        exact stays_of_looks (looks_pure _) (Or.inl (he.2 ▸ hgone))

end Steps

end Journal

end RouteScaffold
