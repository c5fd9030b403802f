import RouteScaffold.Proofs.Disk.Level
import RouteScaffold.Proofs.Disk.Raising
import RouteScaffold.Proofs.Edit.Inserting
import RouteScaffold.Proofs.Journal.Following

/-!
# Refusals

A fault of one of the sorts that a user is meant to see says that a command
cannot be carried out as things are. All other faults are refusals of the
machine below, which may come at any time. Commands look for what could stand in
their way before they write, and so, once a plan is being followed, only
refusals are left to stop it.

What has to be shown of a plan for that is little. Folders, documents and the
exchange of files are refused by the file system or not at all. A new file is
made where nothing is; that nothing is there has been seen before the plan
began, and no step on the way may have put something there. And an edit that
inserts finds its anchor.

## Main definitions

* `Job.Mechanical`: A job that is only ever refused.
* `Journal.Keeps`: A place that no document of an intent is put at.

## Theorems

* `mechanical_folders`, `mechanical_replace`: Jobs that are only ever refused.
* `followed_makes_mechanical`: Making new things is only ever refused.
* `followed_insertsAll_mechanical`: Inserting is only ever refused.
-/

namespace RouteScaffold

open Disk RouteScaffold.Tree Location

namespace Job

variable {α β : Type} {p : Path} {d : Disk}

/-- A job that is only ever refused: no fault of it is one that a user is meant
    to see. -/
def Mechanical (j : Job α) : Prop := Raises (fun _ => True) (fun f => f.category = none) j

theorem tolerates_mechanical : Tolerates (fun _ => True) fun f => f.category = none :=
  ⟨fun _ _ => rfl, fun _ _ _ _ => trivial⟩

theorem Mechanical.fault {j : Job α} (h : Mechanical j) {f : Fault} {d' : Disk} (hf : j.on d = (.error f, d')) :
    f.category = none := Raises.fault h trivial hf

theorem mechanical_pure (a : α) : Mechanical (pure a : Job α) := raises_pure a

theorem Mechanical.bind {j : Job α} {k : α → Job β} (hj : Mechanical j) (hk : ∀ a, Mechanical (k a)) :
    Mechanical (j >>= k) := Raises.bind hj hk

theorem mechanical_isThere (p : Path) : Mechanical (isThere p) := raises_isThere tolerates_mechanical p

theorem mechanical_writeText (p : Path) (t : Text) : Mechanical (writeText p t) :=
  raises_writeText tolerates_mechanical p t

theorem mechanical_replace (p : Path) (t : Text) : Mechanical (replace p t) :=
  raises_replace tolerates_mechanical p t

theorem mechanical_folders (p : Path) : Mechanical (folders p) := raises_folders tolerates_mechanical p

/-- A new file where nothing is. -/
theorem newFile_mechanical (h : d.Absent p) {t : Text} {f : Fault} {d' : Disk}
    (hf : (newFile p t).on d = (.error f, d')) : f.category = none := by
  rw [newFile] at hf
  rcases h.isThere with hno | ⟨f', hno⟩
  · rw [on_bind_ok hno] at hf
    exact ((mechanical_folders p.parent).bind fun _ => mechanical_writeText p t).fault hf
  · rw [on_bind_error hno, Prod.mk.injEq, Except.error.injEq] at hf
    rw [← hf.1]
    exact (mechanical_isThere p).fault hno

end Job

namespace Journal

open Job

variable {here l : Location} {j : Journal} {i i' : Intent} {d d' : Disk} {plan : List Step}

section Raising

variable {I : Disk → Prop} {P : Fault → Prop} (h : Tolerates I P)
include h

theorem raises_save (j : Journal) (i : Intent) : Raises I P (j.save i) := by
  rw [save]
  split
  · exact (raises_folders h _).bind fun _ => raises_replace h _ _
  · exact raises_pure _

theorem raises_drop (j : Journal) (i : Intent) : Raises I P (j.drop i) := raises_unlinkIfPresent h _

theorem raises_learn (j : Journal) (i : Intent) : Raises I P (j.learn i) :=
  (raises_save h j i).bind fun _ => raises_pure _

end Raising

theorem mechanical_learn (j : Journal) (i : Intent) : Mechanical (j.learn i) := raises_learn tolerates_mechanical j i

/-- A place that the documents of intents with an identifier are not put at, nor
    the folders they lie in. -/
structure Keeps (j : Journal) (id : Text) (here l : Location) : Prop where
  folder : Clear here j.folder l
  document : spot here (j.file id) ≠ l

theorem Keeps.shuns_save (h : j.Keeps i.id here l) : Does here (Shuns l) (j.save i) :=
  does_save (shuns_folders h.folder) fun _ => shuns_replace h.document

end Journal

namespace Step

/-- The steps that make new things, or say that they are about to. -/
def creates : Step → Bool
  | .record _ | .folder _ | .newFile .. | .file .. => true
  | _ => false

/-- Whether a step that makes new things makes nothing at a location. -/
def Shuns (here l : Location) : Step → Prop
  | .folder p | .newFile p _ => Clear here p l
  | .file p _ => spot here p ≠ l
  | _ => True

end Step

namespace Journal

open Job Edit

variable {here l : Location} {j : Journal} {i i' : Intent} {d d' : Disk} {plan : List Step}

theorem shuns_take {s : Step} (hs : s.creates = true) (h : s.Shuns here l)
    (hj : j.Keeps i.id here l) : Does here (Shuns l) (j.take i s) := by
  refine does_take (fun i' hid => Keeps.shuns_save (by rw [hid]; exact hj)) (fun p heq => ?_)
    (fun p t heq => ?_) (fun p t heq => ?_) (fun p e heq => ?_) fun p b heq => ?_
  · subst heq
    exact shuns_folders h
  · subst heq
    exact shuns_newFile h
  · subst heq
    exact shuns_writeText h
  · rcases heq with rfl | rfl <;> exact absurd hs (by simp [Step.creates])
  · subst heq
    exact absurd hs (by simp [Step.creates])

/-- Making new things is only ever refused: what is to be a new file was absent,
    and no step before has made anything there. -/
theorem followed_makes_mechanical {f : Fault}
    (hcreates : ∀ s ∈ plan, s.creates = true)
    (habsent : ∀ p t, .newFile p t ∈ plan → d.Absent p)
    (hkeeps : ∀ p t, .newFile p t ∈ plan → unwalkable? p = none → j.Keeps i.id d.here (spot d.here p))
    (hapart : plan.Pairwise fun s s' => ∀ p t, s' = .newFile p t → unwalkable? p = none →
      s.Shuns d.here (spot d.here p))
    (h : j.followed i plan d = (i', .error f, d')) : f.category = none := by
  induction plan generalizing i d with
  | nil => exact absurd h (by simp [followed_nil])
  | cons s plan ih =>
      rw [List.pairwise_cons] at hapart
      have hs := hcreates s (by simp)
      rcases followed_cons_error h with htake | ⟨k, changed, d₁, htake, hrest⟩
      · cases s with
        | record p => exact (mechanical_learn j _).fault htake
        | folder p => exact ((mechanical_folders p).bind fun _ => mechanical_pure _).fault htake
        | newFile p t =>
            rcases on_bind_eq_error.mp htake with hnew | ⟨u, d₂, -, hpure⟩
            · exact newFile_mechanical (habsent p t (by simp)) hnew
            · exact absurd hpure (by simp)
        | file p t => exact ((mechanical_writeText p t).bind fun _ => mechanical_pure _).fault htake
        | snapshot p => exact absurd hs (by simp [Step.creates])
        | snapshotIfPresent p => exact absurd hs (by simp [Step.creates])
        | edit p e => exact absurd hs (by simp [Step.creates])
        | editIfPresent p e => exact absurd hs (by simp [Step.creates])
        | remove p b => exact absurd hs (by simp [Step.creates])
      · have hid := id_of_take htake
        have hmakes : s.makes = true := by
          cases s <;> first | rfl | exact absurd hs (by simp [Step.creates])
        have hhere : d₁.here = d.here := by
          rcases makes_take (j := j) (i := i) hmakes d rfl with ⟨ws, hws, -⟩
          rw [htake] at hws
          dsimp only at hws
          rw [hws, after_here]
        -- What is to be a new file later on is still absent.
        have hstill : ∀ p t, .newFile p t ∈ plan → d₁.Absent p := by
          intro p t hmem hwalk
          have hmem' := List.mem_cons_of_mem s hmem
          rcases shuns_take hs (hapart.1 _ hmem p t rfl hwalk) (hkeeps p t hmem' hwalk) d rfl
            with ⟨ws, hws, hruns⟩
          rw [htake] at hws
          dsimp only at hws
          rw [hws]
          exact (habsent p t hmem').after (fun _ => hruns) hwalk
        refine ih (fun s hs => hcreates s (by simp [hs])) hstill (fun p t hmem => ?_) ?_ hrest
        · rw [hid, hhere]
          exact hkeeps p t (List.mem_cons_of_mem s hmem)
        · rw [hhere]
          exact hapart.2

/-- Inserting into a file that has been found is only ever refused. -/
theorem followed_insertsAll_mechanical {p : Path} {es : List Edit} {loc : Location} {c : Content}
    {raw : Text} {ts : List Text} {f : Fault} (hall : Edit.InsertsAll p.text es raw ts)
    (hfind : d.find p = .ok loc) (hfile : d.tree.get? loc = some (.file c)) (hread : c.read = .ok raw)
    (h : j.followed i (es.map (.edit p)) d = (i', .error f, d')) : f.category = none := by
  induction hall generalizing i d c with
  | nil => exact absurd h (by simp [followed_nil])
  | @cons e es raw u ts happly hins _ ih =>
      rw [List.map_cons] at h
      cases hreplace : d.replaceable p with
      | ok loc' =>
          have heq : loc' = loc := by
            have := (replaceable_eq hreplace).1
            rw [hfind, Except.ok.injEq] at this
            exact this.symm
          subst heq
          have htake := take_edit (j := j) (i := i)
            (on_edit_of_inserts hreplace hfile hread happly hins)
          -- Behind an exchange the file can be exchanged again, so the other edits find it so.
          rcases replaceable_made hreplace (u.withEnding (.detect raw)) with ⟨hagain, hnow⟩
          rcases followed_cons_error h with hstop | ⟨k, changed, d₁, hgo, hrest⟩
          · exact absurd (htake.symm.trans hstop) (by simp [Except.map])
          · have heq := htake.symm.trans hgo
            rw [Prod.mk.injEq] at heq
            rw [← heq.2] at hrest
            exact ih (replaceable_eq hagain).1 hnow rfl hrest
      -- Only the system can refuse the first of them.
      | error e' =>
          have hedit : (Job.edit p e).on d = (.error (.system e' p.text), d) := by
            rw [edit_of_not_append (operation_of_inserts hins),
              on_editExisting_of_read (on_readRaw_of_file hfind hfile hread),
              written_of_inserts happly hins]
            dsimp only
            rw [hreplace]
          have htake := take_edit (j := j) (i := i) hedit
          rcases followed_cons_error h with hstop | ⟨k, changed, d₁, hgo, -⟩
          · have heq := htake.symm.trans hstop
            rw [Prod.mk.injEq] at heq
            rw [← Except.error.inj heq.1]
            rfl
          · exact absurd (htake.symm.trans hgo) (by simp [Except.map])

end Journal

/-! ### A line in a file that may be missing -/

namespace Job

variable {p : Path} {d d' : Disk} {f : Fault}

/-- Reading a file that is there is only ever refused. -/
theorem readRaw_mechanical (h : ∀ e, d.look p = .ok e → ∃ c, e = some (.file c))
    (hf : (readRaw p).on d = (.error f, d')) : f.category = none := by
  rw [on_readRaw] at hf
  cases hlook : d.look p with
  | error e =>
      rw [hlook, Prod.mk.injEq, Except.error.injEq] at hf
      rw [← hf.1]
      rfl
  | ok e =>
      -- A folder, whose fault has a category, is excluded.
      rcases h e hlook with ⟨c, rfl⟩
      rw [hlook] at hf
      dsimp only at hf
      cases hread : c.read with
      | ok t =>
          rw [hread] at hf
          exact absurd hf (by simp)
      | error g =>
          rw [hread, Prod.mk.injEq, Except.error.injEq] at hf
          rw [← hf.1]
          rfl

/-- What is seen at a place that holds no folder. -/
theorem file_of_isThere (hfree : d.Folderless p)
    (h : (isThere p).on d = (.ok true, d)) : ∀ e, d.look p = .ok e → ∃ c, e = some (.file c) := by
  intro e he
  rcases (isThere_iff h).mp rfl with ⟨loc, hfind, hthere⟩
  rcases Option.ne_none_iff_exists'.mp hthere with ⟨x, hx⟩
  rw [look_eq_some.mpr ⟨loc, hfind, hx⟩, Except.ok.injEq] at he
  cases x with
  | folder => exact absurd hx (hfree.ne_folder hfind)
  | file c => exact ⟨c, he.symm⟩

theorem editExisting_append_mechanical {line : Text} (h : ∀ e, d.look p = .ok e → ∃ c, e = some (.file c))
    (hf : (editExisting p (.append line)).on d = (.error f, d')) : f.category = none := by
  rw [editExisting] at hf
  rcases on_bind_eq_error.mp hf with hf | ⟨raw, d₁, hraw, hf⟩
  · exact readRaw_mechanical h hf
  · refine (Mechanical.bind (j := ofExcept _) ?_ fun r => ?_).fault hf
    · exact mechanical_pure _
    · cases r with
      | none => exact mechanical_pure _
      | some t => exact (mechanical_replace p t).bind fun _ => mechanical_pure _

/-- Appending a line where no folder is, and none is made before, is only ever
    refused. -/
theorem edit_append_mechanical {line : Text} (hfree : d.Folderless p)
    (hf : (edit p (.append line)).on d = (.error f, d')) : f.category = none := by
  have happend : (Edit.append line).operation = .append := rfl
  rw [edit, if_pos happend] at hf
  have hsupply : Mechanical (supply p) := (mechanical_isThere p).bind fun b => by
    cases b
    · exact (mechanical_folders _).bind fun _ => mechanical_writeText _ _
    · exact mechanical_pure _
  rcases on_bind_eq_error.mp hf with hf | ⟨u, d₁, hs, hf⟩
  · exact hsupply.fault hf
  · refine editExisting_append_mechanical ?_ hf
    rcases (looks_isThere p).cases d with ⟨g, hg⟩ | ⟨b, hb⟩
    · rw [supply, on_bind_error hg] at hs
      exact absurd hs (by simp)
    · rw [supply, on_bind_ok hb] at hs
      cases b with
      | true =>
          rw [show d₁ = d from (Prod.mk.injEq _ _ _ _ ▸ hs).2.symm]
          exact file_of_isThere hfree hb
      | false =>
          -- The file has just been written.
          rcases on_bind_eq_ok.mp hs with ⟨u', d₂, -, hwrite⟩
          rw [writeText, on_bind, on_ask] at hwrite
          cases hw : d₂.writable p with
          | error e =>
              rw [hw] at hwrite
              exact absurd hwrite (by simp)
          | ok loc =>
              rw [hw] at hwrite
              dsimp only at hwrite
              rw [on_write, Prod.mk.injEq] at hwrite
              have hadmits : d₂.tree.Admits (.put loc (.file (.text []))) := admits_writable hw
              intro e he
              have hnow : d₁.look p = .ok (some (.file (.text []))) := by
                rw [← hwrite.2]
                refine look_eq_some.mpr ⟨loc, ?_, ?_⟩
                · exact @find_after _ _ _ [.put loc (.file (.text []))] (writable_eq hw).1
                    (.singleton ⟨hadmits, _, _, rfl⟩)
                · rw [made, get?_apply_put hadmits, if_pos rfl]
              rw [hnow, Except.ok.injEq] at he
              exact ⟨_, he.symm⟩

end Job

namespace Journal

open Job

variable {j : Journal} {i i' : Intent} {d d' : Disk} {f : Fault}

/-- Learning what a file holds is only ever refused, if there is no folder. -/
theorem learnSnapshot_mechanical {p : Path} (hfree : d.Folderless p)
    (hf : (j.learnSnapshot i p).on d = (.error f, d')) : f.category = none := by
  rw [learnSnapshot] at hf
  split at hf
  · exact absurd hf (by simp)
  -- Looking the path up, reading it and saving the intent are what can fail.
  · rcases on_bind_eq_error.mp hf with hf | ⟨k, d₁, -, hf⟩
    · rw [withSnapshotOf, if_neg ‹_›] at hf
      rcases on_bind_eq_error.mp hf with hf | ⟨s, d₁, -, hf⟩
      · rw [snapshotOf] at hf
        rcases (looks_isThere p).cases d with ⟨g, hg⟩ | ⟨b, hb⟩
        · rw [on_bind_error hg, Prod.mk.injEq, Except.error.injEq] at hf
          rw [← hf.1]
          exact (mechanical_isThere p).fault hg
        · rw [on_bind_ok hb] at hf
          cases b with
          | false => exact absurd hf (by simp)
          | true =>
              rcases on_bind_eq_error.mp hf with hf | ⟨t, d₂, -, hf⟩
              · exact readRaw_mechanical (file_of_isThere hfree hb) hf
              · exact absurd hf (by simp)
      · exact absurd hf (by simp)
    · exact (mechanical_learn j k).fault hf

end Journal

end RouteScaffold
