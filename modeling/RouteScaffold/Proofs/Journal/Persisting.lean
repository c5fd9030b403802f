import RouteScaffold.Proofs.Edit.Inserting
import RouteScaffold.Proofs.Journal.Bookkeeping
import RouteScaffold.Proofs.Journal.Reading

/-!
# Intents in Memory and on Disk

A command holds its intent in memory, and tells it one thing after the other. Each time the
whole intent is saved again, so that what can be read back is what is in memory. This is so
of any number of intents at once, since the documents of two have different names, unless
the two have one identifier; then there is one document, of the one that was saved last.

A call may fail: a command cannot begin where no document can be written, and nothing can be
learned of a file that cannot be read. But an intent that has been saved once can be saved
again whatever the others do, for saving neither removes anything nor takes away a folder.
So a call that fails leaves the memory and the documents as they were.

The descriptor of a role is written in the same way, once, and is read back as it was kept.

## Main definitions

* `Journal.Lesson`, `Journal.Call`: What an intent is told, and what a journal is asked.
* `Journal.play`: What calls leave in memory and on disk.
* `Journal.Settled`: A journal holds the document of an intent, and can exchange it.
* `Journal.InStep`: Memory and documents agree.
* `Journal.Legible`: A document that does not keep others from being listed.

## Theorems

* `InStep.play`: Memory and documents agree after any calls.
* `mem_of_pending`: What a journal holds is pending.
* `records_read_back`: What was kept is read back as it was.
-/

namespace RouteScaffold

open Job Disk RouteScaffold.Tree

/-- What is found under a single name below a path lies in the folder of that path. -/
theorem Disk.found_in_folder {p : Path} {n : Text} {d : Disk} {loc : Location} (hn : Path.IsName n)
    (h : d.find (p.below [n]) = .ok loc) : d.find p = .ok (spot d.here p)
      ∧ d.tree.get? (spot d.here p) = some .folder ∧ loc = spot d.here p ++ [n] := by
  have hdots : ['.', '.'] ∉ [n] := by
    rw [List.mem_singleton]
    exact fun heq => hn.2.2.2 heq.symm
  refine ⟨find_of_below h, way_of_find h _ ?_, ?_⟩
  · rw [way_below, List.mem_append]
    exact Or.inr (List.mem_singleton.mpr rfl)
  · rw [spot_of_find h, spot_below _ _ hdots]

namespace Journal

/-! ### Calls -/

/-- What an intent is told. -/
inductive Lesson where
  /-- A path is about to be made. -/
  | created (p : Path)
  /-- What a file holds. -/
  | held (p : Path)
  /-- The fault that stopped the command. -/
  | failed (message : Text)
  deriving DecidableEq, Repr

/-- What an intent becomes when it is told something that it does not know. -/
def Lesson.heard (i : Intent) : Lesson → Job (Option Intent)
  | created p => return some (i.withCreated p.text)
  | held p => do
    if i.hasSnapshot p.text then return none else return some (i.withSnapshot (← snapshotOf p))
  | failed message => return some (i.withError message)

/-- What a journal is asked. Intents in memory are told apart by how many were begun
    before them. -/
inductive Call where
  | begin (now : Timestamp) (verb : Text) (args : List Text) (mode : Mode)
  | tell (k : Nat) (lesson : Lesson)
  deriving DecidableEq, Repr

/-- What a call leaves in memory and on disk, whether it fails or not. -/
def Call.make (j : Journal) : Call → List Intent × Disk → List Intent × Disk
  | begin now verb args mode, (m, d) =>
    match (j.begin now verb args mode).on d with
    | (.ok i, d') => (m ++ [i], d')
    | (.error _, d') => (m, d')
  | tell k lesson, (m, d) =>
    match m[k]? with
    | none => (m, d)
    | some i =>
      match (lesson.heard i).on d with
      | (.ok (some i'), d') => (m.set k i', ((j.save i').on d').2)
      | (.ok none, d') | (.error _, d') => (m, d')

/-- What calls leave in memory and on disk, one after the other. -/
def play (j : Journal) (calls : List Call) (s : List Intent × Disk) : List Intent × Disk :=
  calls.foldl (fun s c => c.make j s) s

/-- A command begins at a moment of the calendar, in local time. -/
def Call.Timely : Call → Prop
  | begin now .. => now.isValid = true ∧ now.isMarked = false
  | tell .. => True

instance : DecidablePred Call.Timely
  | .begin .. => inferInstanceAs (Decidable (_ ∧ _))
  | .tell .. => inferInstanceAs (Decidable True)

/-! ### Saving again -/

variable {j : Journal} {i k : Intent} {m : List Intent} {d d' : Disk} {id : Text} {loc : Location}

/-- Where the document of an intent is found, it lies in the folder of the journal. -/
theorem folder_of_found (hid : Intent.IsIdentifier id) (h : d.find (j.file id) = .ok loc) :
    d.find j.folder = .ok (spot d.here j.folder) ∧ d.tree.get? (spot d.here j.folder) = some .folder
      ∧ loc = spot d.here j.folder ++ [id ++ ".json".toList] := by
  rw [file_eq_below hid.1] at h
  exact found_in_folder (isName_document hid.1) h

/-- A journal holds the document of an intent, and can exchange it for another. -/
def Settled (j : Journal) (i : Intent) (d : Disk) : Prop :=
  j.Holds i d ∧ ∃ loc, d.replaceable (j.file i.id) = .ok loc

/-- An intent that was saved is settled. -/
theorem settled_of_save (hkeeps : j.keeps = true) (h : (j.save i).on d = (.ok (), d')) : j.Settled i d' := by
  refine ⟨opened_of_save hkeeps h, ?_⟩
  rw [save, hkeeps, if_pos rfl] at h
  rcases on_bind_eq_ok.mp h with ⟨u, d₁, -, hreplace⟩
  rw [on_replace] at hreplace
  split at hreplace
  · next loc hloc =>
      rw [← (Prod.mk.inj hreplace).2]
      exact ⟨loc, (replaceable_made hloc _).1⟩
  · exact absurd hreplace (by simp)

/-- An intent that is settled can be saved as it is now. -/
theorem Settled.save (h : j.Settled i d) (hid : Intent.IsIdentifier i.id) (hkeeps : j.keeps = true)
    (hk : k.id = i.id) : ∃ d', (j.save k).on d = (.ok (), d') := by
  rcases h.2 with ⟨loc, hreplace⟩
  rcases folder_of_found hid (replaceable_eq hreplace).1 with ⟨hfind, hfolder, -⟩
  refine ⟨d.made (.put loc (.file (.text k.document))), ?_⟩
  rw [Journal.save, hkeeps, if_pos rfl, on_bind_ok (on_folders_of_found hfind hfolder), on_replace, hk, hreplace]

/-- An intent stays settled when one with another identifier is saved, or is not. -/
theorem Settled.spared (h : j.Settled k d) (hk : Intent.IsIdentifier k.id) (hi : Intent.IsIdentifier i.id)
    (hne : k.id ≠ i.id) {r : Except Fault Unit} (hsave : (j.save i).on d = (r, d')) : j.Settled k d' := by
  rcases h with ⟨⟨loc, hopened⟩, loc', hreplace⟩
  rcases opened_eq hopened with ⟨hfind, hfile⟩
  have hloc : loc' = loc := by
    have := (replaceable_eq hreplace).1
    rw [hfind, Except.ok.injEq] at this
    exact this.symm
  -- The two documents have different names in one folder.
  have hspot : spot d.here (j.file i.id) ≠ loc := by
    have hdots : ['.', '.'] ∉ [i.id ++ ".json".toList] := by
      rw [List.mem_singleton]
      exact fun heq => (isName_document hi.1).2.2.2 heq.symm
    rw [(folder_of_found hk hfind).2.2, file_eq_below hi.1, spot_below _ _ hdots]
    intro heq
    exact hne (List.append_cancel_right (List.singleton_inj.mp (List.append_cancel_left heq))).symm
  rcases ((makes_save j i).and (spares_save hspot)) d rfl with ⟨ws, hws, hruns⟩
  have hmakes : d.tree.Runs Makes ws := hruns.mono fun _ _ hw => hw.1
  have hspares : d.tree.Runs (Spares loc) ws := hruns.mono fun _ _ hw => hw.2
  rw [hsave] at hws
  rw [show d' = d.after ws from hws]
  have hnow : (d.after ws).tree.get? loc = some (.file (.text k.document)) := by
    rw [after_tree]
    exact hspares.spares hfile
  refine ⟨⟨loc, opened_of_find (find_after hfind hmakes) hnow⟩, loc', ?_⟩
  refine replaceable_of_folders hreplace (after_here d ws) (fun l hl => ?_) ?_
  · rw [after_tree]
    exact hmakes.keeps_folder hl
  · rw [hloc, hnow]
    simp

/-! ### Memory and documents -/

/-- Memory and documents agree: whatever identifier an intent in memory has, the journal
    holds the document of an intent in memory that has it. -/
structure InStep (j : Journal) (m : List Intent) (d : Disk) : Prop where
  known : ∀ i ∈ m, Intent.IsIdentifier i.id
  timely : ∀ i ∈ m, i.startedAt.isValid = true ∧ i.startedAt.isMarked = false
  settled : ∀ i ∈ m, ∃ k ∈ m, k.id = i.id ∧ j.Settled k d

theorem InStep.start (j : Journal) (d : Disk) : j.InStep [] d :=
  ⟨fun _ h => absurd h (by simp), fun _ h => absurd h (by simp), fun _ h => absurd h (by simp)⟩

/-- A save that succeeds puts the intent in the place of those with its identifier. -/
theorem InStep.saved {m' : List Intent} (h : j.InStep m d) (hkeeps : j.keeps = true)
    (hid : Intent.IsIdentifier i.id)
    (htime : i.startedAt.isValid = true ∧ i.startedAt.isMarked = false)
    (hsave : (j.save i).on d = (.ok (), d')) (hmem : i ∈ m') (hnew : ∀ k ∈ m', k = i ∨ k ∈ m)
    (hkept : ∀ k ∈ m, k.id ≠ i.id → k ∈ m') : j.InStep m' d' := by
  refine ⟨fun k hk => ?_, fun k hk => ?_, fun k hk => ?_⟩
  · rcases hnew k hk with rfl | hold
    · exact hid
    · exact h.known k hold
  · rcases hnew k hk with rfl | hold
    · exact htime
    · exact h.timely k hold
  -- The saved intent takes the place of the one of the same name, and the others are spared.
  · by_cases hne : k.id = i.id
    · exact ⟨i, hmem, hne.symm, settled_of_save hkeeps hsave⟩
    · have hold : k ∈ m := (hnew k hk).resolve_left fun heq => hne (congrArg Intent.id heq)
      rcases h.settled k hold with ⟨l, hl, hlk, hsettled⟩
      have hli : l.id ≠ i.id := fun heq => hne (hlk.symm.trans heq)
      exact ⟨l, hkept l hl hli, hlk, hsettled.spared (h.known l hl) hid hli hsave⟩

/-- A save that fails was of an identifier that no intent in memory has. -/
theorem InStep.refused (h : j.InStep m d) (hkeeps : j.keeps = true) (hid : Intent.IsIdentifier i.id)
    {f : Fault} (hsave : (j.save i).on d = (.error f, d')) : j.InStep m d' := by
  refine ⟨h.known, h.timely, fun k hk => ?_⟩
  rcases h.settled k hk with ⟨l, hl, hlk, hsettled⟩
  have hne : l.id ≠ i.id := by
    intro heq
    rcases hsettled.save (h.known l hl) hkeeps heq.symm with ⟨d₁, hok⟩
    rw [hok] at hsave
    exact absurd hsave (by simp)
  exact ⟨l, hl, hlk, hsettled.spared (h.known l hl) hid hne hsave⟩

theorem Lesson.looks_heard (i : Intent) (lesson : Lesson) : Looks (lesson.heard i) := by
  cases lesson with
  | created p | failed message => exact looks_pure _
  | held p => exact .ite (looks_pure _) ((looks_snapshotOf p).bind fun _ => looks_pure _)

/-- Being told something changes neither the identifier nor the moment of an intent. -/
theorem Lesson.heard_ok {lesson : Lesson} {i' : Intent} (h : (lesson.heard i).on d = (.ok (some i'), d')) :
    i'.id = i.id ∧ i'.startedAt = i.startedAt := by
  cases lesson with
  | created p | failed message =>
      rw [heard, on_pure, Prod.mk.injEq, Except.ok.injEq, Option.some.injEq] at h
      rw [← h.1]
      exact ⟨rfl, rfl⟩
  | held p =>
      rw [heard] at h
      split at h
      · exact absurd h (by simp [on_pure])
      · rcases on_bind_eq_ok.mp h with ⟨s, d₁, -, hpure⟩
        rw [on_pure, Prod.mk.injEq, Except.ok.injEq, Option.some.injEq] at hpure
        rw [← hpure.1]
        exact ⟨rfl, rfl⟩

/-- Memory and documents agree after a call if they did before it. -/
theorem InStep.make (h : j.InStep m d) (hkeeps : j.keeps = true) {c : Call} (hc : c.Timely) :
    j.InStep (c.make j (m, d)).1 (c.make j (m, d)).2 := by
  cases c with
  | begin now verb args mode =>
      have hid : Intent.IsIdentifier (Intent.start verb args mode now).id :=
        Intent.isIdentifier verb args mode now
      have htime : (Intent.start verb args mode now).startedAt = now := rfl
      rw [Call.make, begin]
      generalize Intent.start verb args mode now = i at hid htime ⊢
      rcases hsave : (j.save i).on d with ⟨r, d'⟩
      cases r with
      | error f =>
          rw [on_bind_error hsave]
          exact h.refused hkeeps hid hsave
      | ok u =>
          rw [on_bind_ok hsave, on_pure]
          refine h.saved hkeeps hid (htime ▸ hc) hsave (by simp) (fun k hk => ?_) fun k hk _ => by simp [hk]
          exact (List.mem_append.mp hk).symm.imp_left List.mem_singleton.mp
  | tell k lesson =>
      rw [Call.make]
      cases hk : m[k]? with
      | none => exact h
      | some i =>
          dsimp only
          rcases hheard : (lesson.heard i).on d with ⟨r, d₁⟩
          have hd₁ : d₁ = d := by
            have := lesson.looks_heard i d
            rwa [hheard] at this
          subst hd₁
          rcases r with f | _ | i'
          · exact h
          · exact h
          · dsimp only
            have hi : i ∈ m := List.mem_of_getElem? hk
            have hlt : k < m.length := (List.getElem?_eq_some_iff.mp hk).1
            rcases lesson.heard_ok hheard with ⟨hid, htime⟩
            -- The journal holds a document with this identifier, so it can be exchanged.
            rcases h.settled i hi with ⟨l, hl, hli, hsettled⟩
            rcases hsettled.save (h.known l hl) hkeeps (hid.trans hli.symm) with ⟨d', hsave⟩
            rw [hsave]
            refine h.saved hkeeps (hid ▸ h.known i hi) (htime ▸ h.timely i hi) hsave
              (List.mem_set hlt i') (fun a ha => (List.mem_or_eq_of_mem_set ha).symm) fun a ha hne => ?_
            rcases List.getElem?_of_mem ha with ⟨n, hn⟩
            have hnk : k ≠ n := by
              rintro rfl
              rw [hk, Option.some.injEq] at hn
              exact hne (hn ▸ hid.symm)
            exact List.mem_of_getElem? ((List.getElem?_set_ne hnk).trans hn)

/-- Memory and documents agree after any calls. -/
theorem InStep.play (h : j.InStep m d) (hkeeps : j.keeps = true) {calls : List Call}
    (hcalls : ∀ c ∈ calls, c.Timely) : j.InStep (j.play calls (m, d)).1 (j.play calls (m, d)).2 := by
  induction calls generalizing m d with
  | nil => exact h
  | cons c calls ih =>
      exact ih (h.make hkeeps (hcalls c (by simp))) fun c' hc' => hcalls c' (by simp [hc'])

/-! ### Listing what is pending -/

theorem placeByTime_perm (i : Intent) (is : List Intent) : (placeByTime i is).Perm (i :: is) := by
  induction is with
  | nil => rfl
  | cons k is ih =>
      rw [placeByTime]
      split
      · exact (ih.cons k).trans (.swap i k is)
      · rfl

theorem foldr_placeByTime_perm (is : List Intent) : (is.foldr placeByTime []).Perm is := by
  induction is with
  | nil => rfl
  | cons i is ih => exact (placeByTime_perm i _).trans (ih.cons i)

/-- The order of time leaves none out. -/
theorem oldestFirst_perm {is ps : List Intent} (h : oldestFirst is = .ok ps) : ps.Perm is := by
  rw [oldestFirst] at h
  split at h
  · rw [← Except.ok.inj h]
    exact foldr_placeByTime_perm is
  · exact absurd h (by simp)

/-- Moments in local time have an order. -/
theorem oldestFirst_of_local {is : List Intent} (h : ∀ i ∈ is, i.startedAt.isMarked = false) :
    ∃ ps, oldestFirst is = .ok ps := by
  have hall : is.all (fun i => !i.startedAt.isMarked) = true :=
    List.all_eq_true.mpr fun i hi => by rw [h i hi]; rfl
  exact ⟨_, by rw [oldestFirst, hall, Bool.or_true, if_pos rfl]⟩

end Journal

namespace Job

variable {α β : Type} {f : α → Job β} {xs : List α} {d d' : Disk}

/-- What was looked up for each of some things is found among the answers. -/
theorem Looks.mapM_ok (hf : ∀ x, Looks (f x)) {ys : List β} (h : (xs.mapM f).on d = (.ok ys, d')) :
    d' = d ∧ ∀ x ∈ xs, ∃ y ∈ ys, (f x).on d = (.ok y, d) := by
  induction xs generalizing ys with
  | nil => exact ⟨(Prod.mk.inj h).2.symm, fun x hx => absurd hx (by simp)⟩
  | cons x xs ih =>
      rw [List.mapM_cons] at h
      rcases on_bind_eq_ok.mp h with ⟨y, d₁, hx, hrest⟩
      rcases on_bind_eq_ok.mp hrest with ⟨zs, d₂, hxs, hpure⟩
      rw [(hf x).ok hx] at hxs
      have hx' : (f x).on d = (.ok y, d) := by rw [hx, (hf x).ok hx]
      rw [on_pure, Prod.mk.injEq, Except.ok.injEq] at hpure
      -- What has been looked up leaves the disk as it is, so the others are looked up there.
      rcases hpure with ⟨rfl, rfl⟩
      rcases ih hxs with ⟨hd, hmem⟩
      refine ⟨hd, fun z hz => ?_⟩
      rcases List.mem_cons.mp hz with rfl | hz
      · exact ⟨y, by simp, hx'⟩
      · rcases hmem z hz with ⟨w, hw, hzw⟩
        exact ⟨w, by simp [hw], hzw⟩

/-- What can be looked up for each of some things can be looked up for all of them. -/
theorem on_mapM_of_each {P : β → Prop} (h : ∀ x ∈ xs, ∃ y, (f x).on d = (.ok y, d) ∧ P y) :
    ∃ ys, (xs.mapM f).on d = (.ok ys, d) ∧ ∀ y ∈ ys, P y := by
  induction xs with
  | nil => exact ⟨[], rfl, fun y hy => absurd hy (by simp)⟩
  | cons x xs ih =>
      rcases h x (by simp) with ⟨y, hx, hy⟩
      rcases ih fun z hz => h z (by simp [hz]) with ⟨ys, hxs, hys⟩
      refine ⟨y :: ys, ?_, List.forall_mem_cons.mpr ⟨hy, hys⟩⟩
      rw [List.mapM_cons, on_bind_ok hx, on_bind_ok hxs]
      rfl

end Job

namespace Journal

variable {j : Journal} {i : Intent} {m : List Intent} {d d' : Disk} {now : Timestamp}

/-- A document that does not keep others from being listed: it can be read, and if it is an
    intent, this one began in local time. -/
def Legible (j : Journal) (now : Timestamp) (d : Disk) (name : Text) : Prop :=
  ∃ r, (intentIn? now (j.folder / name)).on d = (.ok r, d) ∧ ∀ i ∈ r, i.startedAt.isMarked = false

theorem looks_intentIn (now : Timestamp) (p : Path) : Looks (intentIn? now p) := fun d => by
  rw [on_intentIn]
  split
  · split <;> rfl
  · rfl

section Held

variable (h : j.Holds i d) (hid : Intent.IsIdentifier i.id) (hvalid : i.startedAt.isValid = true)
include h

theorem on_intentIn_of_holds (hvalid : i.startedAt.isValid = true) (now : Timestamp) :
    (intentIn? now (j.folder / (i.id ++ ".json".toList))).on d = (.ok (some i), d) := by
  rcases h with ⟨loc, hopened⟩
  rw [file] at hopened
  rw [on_intentIn, hopened]
  change (Except.ok (Intent.ofDocument? now i.document.unifyEndings), d) = _
  rw [Intent.ofDocument?_document hvalid]

include hid

/-- A document that is held is listed in the folder of the journal. -/
theorem listed_of_holds : (isFolder j.folder).on d = (.ok true, d)
    ∧ i.id ++ ".json".toList ∈ documentsIn d j.folder := by
  rcases h with ⟨loc, hopened⟩
  rcases opened_eq hopened with ⟨hfind, hfile⟩
  rcases folder_of_found hid hfind with ⟨hfolder, hentry, rfl⟩
  refine ⟨?_, ?_⟩
  · rw [on_isFolder, look_eq_some.mpr ⟨_, hfolder, hentry⟩]
    rfl
  · rw [documentsIn, hfolder, List.mem_filter]
    refine ⟨mem_namesIn.mpr (by rw [hfile]; simp), ?_⟩
    rw [Text.endsWith, Text.startsWith, List.reverse_append, Tag.after?_append]
    rfl

include hvalid

/-- What a journal holds is pending. -/
theorem mem_of_pending {ps : List Intent} (hpending : (j.pending now).on d = (.ok ps, d')) : i ∈ ps := by
  rcases listed_of_holds h hid with ⟨hfolder, hlisted⟩
  rw [on_pending_of_folder hfolder] at hpending
  rcases on_bind_eq_ok.mp hpending with ⟨found, d₁, hfound, hsorted⟩
  rcases (Looks.mapM_ok (fun name => looks_intentIn now (j.folder / name)) hfound).2 _ hlisted with ⟨r, hr, hread⟩
  rw [on_intentIn_of_holds h hvalid, Prod.mk.injEq, Except.ok.injEq] at hread
  rw [on_ofExcept, Prod.mk.injEq] at hsorted
  refine (oldestFirst_perm hsorted.1).mem_iff.mpr (List.mem_filterMap.mpr ⟨r, hr, hread.1.symm⟩)

end Held

/-- What is pending is listed if all documents are legible. -/
theorem on_pending_of_legible (hfolder : (isFolder j.folder).on d = (.ok true, d))
    (h : ∀ name ∈ documentsIn d j.folder, j.Legible now d name) :
    ∃ ps, (j.pending now).on d = (.ok ps, d) := by
  rcases on_mapM_of_each h with ⟨found, hfound, hlocal⟩
  have hall : ∀ i ∈ found.filterMap (fun r => r), i.startedAt.isMarked = false := by
    intro i hi
    rcases List.mem_filterMap.mp hi with ⟨r, hr, hri⟩
    exact hlocal r hr i hri
  rcases oldestFirst_of_local hall with ⟨ps, hps⟩
  refine ⟨ps, ?_⟩
  rw [on_pending_of_folder hfolder, on_bind_ok hfound, hps]
  rfl

end Journal

/-! ### Descriptors -/

/-- A descriptor that was kept is loaded as it was. -/
theorem Descriptor.load_of_keep {l : Layout} {made : Descriptor} {file : Path} {d d' : Disk}
    (hvalid : made.createdAt.isValid = true) (h : (Descriptor.keep l made).on d = (.ok file, d'))
    (now : Timestamp) : (Descriptor.load l now made.name).on d' = (.ok made, d') := by
  -- Where the role has no folder, its descriptor is not written.
  cases hfolder : l.roleFolder made.name with
  | error f =>
      rcases on_bind_eq_ok.mp h with ⟨file', d₁, hfile, -⟩
      rw [Layout.descriptorFile, hfolder, on_ofExcept] at hfile
      exact absurd hfile (by simp [bind, Except.bind])
  | ok folder =>
      rw [keep, Layout.descriptorFile_eq hfolder, on_ofExcept_bind] at h
      rcases on_bind_eq_ok.mp h with ⟨u, d₁, hwritten, hpure⟩
      rw [on_pure, Prod.mk.injEq] at hpure
      rw [← hpure.2]
      rcases on_bind_eq_ok.mp hwritten with ⟨loc, d₂, hask, hwrite⟩
      rw [on_ask] at hask
      split at hask
      · next loc' hwritable =>
          rw [Prod.mk.injEq, Except.ok.injEq] at hask
          rcases hask with ⟨rfl, rfl⟩
          rw [on_write, Prod.mk.injEq] at hwrite
          -- The write makes the file at its place, so this is what is read.
          rw [← hwrite.2]
          have hadmits : d.tree.Admits (.put loc' (.file (.text made.document))) := admits_writable hwritable
          have hfind : (d.made (.put loc' (.file (.text made.document)))).find
              (folder.below [".aviators-role.json".toList]) = .ok loc' :=
            @find_after _ _ _ [_] (writable_eq hwritable).1 (.singleton ⟨hadmits, _, _, rfl⟩)
          have hmade : (d.made (.put loc' (.file (.text made.document)))).tree.get? loc'
              = some (.file (.text made.document)) := by
            rw [Disk.made, get?_apply_put hadmits, if_pos rfl]
          rcases found_in_folder ⟨by decide, by decide, by decide, by decide⟩ hfind with ⟨hbase, hentry, -⟩
          exact on_load_of_found hfolder hvalid hbase hentry hfind hmade now
      · exact absurd hask (by simp)

/-! ### Reading back -/

namespace Journal

/-- What was kept is read back as it was. After any calls, on whatever disk, some of which
    may have failed, an intent in memory is the one that the journal finds under its
    identifier, and is among those that are pending; these are listed unless a document of
    another origin cannot be read or is marked with a zone. If several intents in memory
    have one identifier, one of them is found under it. And a descriptor that was kept is
    the one that is loaded. -/
theorem records_read_back {j : Journal} {calls : List Call} {m : List Intent} {d d' : Disk}
    (hkeeps : j.keeps = true) (hcalls : ∀ c ∈ calls, c.Timely) (hplay : j.play calls ([], d) = (m, d'))
    (now : Timestamp) :
    (∀ i ∈ m, ∃ k ∈ m, k.id = i.id ∧ ((∀ l ∈ m, l.id = i.id → l = i) → k = i)
      ∧ (j.get now i.id).on d' = (.ok k, d')
      ∧ (∀ ps e, (j.pending now).on d' = (.ok ps, e) → k ∈ ps)
      ∧ ((∀ name ∈ documentsIn d' j.folder, (∀ l ∈ m, name ≠ l.id ++ ".json".toList) →
        j.Legible now d' name) → ∃ ps, (j.pending now).on d' = (.ok ps, d')))
    ∧ ∀ (l : Layout) (made : Descriptor) (e : Disk) file e', made.createdAt.isValid = true →
      (Descriptor.keep l made).on e = (.ok file, e') →
      (Descriptor.load l now made.name).on e' = (.ok made, e') := by
  refine ⟨fun i hi => ?_, fun l made e file e' hvalid hkeep => Descriptor.load_of_keep hvalid hkeep now⟩
  have hstep := (InStep.start j d).play hkeeps hcalls
  rw [hplay] at hstep
  rcases hstep.settled i hi with ⟨k, hk, hki, hholds, -⟩
  have hlisted := listed_of_holds hholds (hstep.known k hk)
  -- For an intent in memory the one saved last under its name is read back.
  refine ⟨k, hk, hki, fun hunique => hunique k hk hki, ?_, fun ps e hps =>
    mem_of_pending hholds (hstep.known k hk) (hstep.timely k hk).1 hps, fun hothers => ?_⟩
  · rw [← hki]
    exact on_get_of_holds hholds (hstep.timely k hk).1 now
  · refine on_pending_of_legible hlisted.1 fun name hname => ?_
    by_cases hown : ∃ l ∈ m, name = l.id ++ ".json".toList
    · -- The documents of intents in memory speak of local time.
      rcases hown with ⟨l, hl, rfl⟩
      rcases hstep.settled l hl with ⟨l', hl', hid, hholds', -⟩
      rw [← hid]
      refine ⟨some l', on_intentIn_of_holds hholds' (hstep.timely l' hl').1 now, fun a ha => ?_⟩
      rw [← Option.some.inj ha]
      exact (hstep.timely l' hl').2
    · exact hothers name hname fun l hl heq => hown ⟨l, hl, heq⟩

/-- A journal whose folder is still to be made. -/
def bare : Journal := ⟨Path.ofText "intents", true⟩

/-- A project with the folder of a role, and a file with quotes, control characters and
    several sorts of line breaks. -/
def awkward : Disk := .fresh ⟨[(["src".toList], .folder), (["src".toList, "Roles".toList], .folder),
  (["src".toList, "Roles".toList, "inst".toList], .folder),
  (["a.ts".toList], .file (.text "\"\\\x00\x1b\r\n\u2028\n".toList))]⟩ []

/-- Two commands, one stopped by a fault, and the other one, which began before it, without
    arguments. -/
def commands : List Call :=
  [.begin ⟨2024, 2, 29, 23, 59, 59, 7, false⟩ "page\n".toList ["\"".toList, []] .create,
    .tell 0 (.created (Path.ofText "b\\c")), .tell 0 (.held (Path.ofText "a.ts")),
    .begin ⟨2024, 2, 29, 23, 59, 58, 0, false⟩ [] [] .delete, .tell 0 (.held (Path.ofText "c.ts")),
    .tell 0 (.failed "\r\t\x85")]

/-- What the two commands have in memory. -/
def memory : List Intent :=
  [⟨Intent.identifier "page\n" ["\"".toList, []] .create ⟨2024, 2, 29, 23, 59, 59, 7, false⟩, "page\n".toList,
      ["\"".toList, []], .create, ⟨2024, 2, 29, 23, 59, 59, 7, false⟩, ["b\\c".toList],
      [⟨"a.ts".toList, some "\"\\\x00\x1b\r\n\u2028\n".toList⟩, ⟨"c.ts".toList, none⟩],
      some "\r\t\x85".toList⟩,
    .start [] [] .delete ⟨2024, 2, 29, 23, 59, 58, 0, false⟩]

/-- What is kept of the role. -/
def kept : Descriptor := ⟨"inst".toList, .flat, ⟨2024, 3, 1, 0, 0, 0, 0, false⟩⟩

theorem records_read_back_commands : bare.keeps = true ∧ (∀ c ∈ commands, c.Timely)
    ∧ kept.createdAt.isValid = true
    ∧ ∃ d', bare.play commands ([], awkward) = (memory, d')
      ∧ (∀ i ∈ memory, (bare.get kept.createdAt i.id).on d' = (.ok i, d'))
      ∧ (∃ ps, (bare.pending kept.createdAt).on d' = (.ok ps, d') ∧ ∀ i ∈ memory, i ∈ ps)
      ∧ ∃ file d'', (Descriptor.keep (.ofRoot (Path.ofText ".")) kept).on d' = (.ok file, d'')
        ∧ (Descriptor.load (.ofRoot (Path.ofText ".")) kept.createdAt kept.name).on d'' = (.ok kept, d'') := by
  have htimely : ∀ c ∈ commands, c.Timely := by decide
  have hruns : (bare.play commands ([], awkward)).1 = memory
      ∧ documentsIn (bare.play commands ([], awkward)).2 bare.folder = memory.map (fun i => i.id ++ ".json".toList)
      ∧ (memory.map Intent.id).Nodup
      ∧ ((Descriptor.keep (.ofRoot (Path.ofText ".")) kept).on
        (bare.play commands ([], awkward)).2).1.isOk = true := by
    decide +kernel
  rcases hruns with ⟨hmemory, hdocuments, hids, hkept⟩
  rcases hplay : bare.play commands ([], awkward) with ⟨m, d'⟩
  rw [hplay] at hmemory hdocuments hkept
  obtain rfl : m = memory := hmemory
  have hread : ∀ i ∈ memory, (bare.get kept.createdAt i.id).on d' = (.ok i, d')
      ∧ (∀ ps e, (bare.pending kept.createdAt).on d' = (.ok ps, e) → i ∈ ps)
      ∧ ∃ ps, (bare.pending kept.createdAt).on d' = (.ok ps, d') := by
    intro i hi
    rcases (records_read_back rfl htimely hplay kept.createdAt).1 i hi
      with ⟨k, hk, hki, hown, hget, hpending, hlists⟩
    obtain rfl : k = i := hown fun l hl hli => List.inj_on_of_nodup_map hids hl hi hli
    refine ⟨hget, hpending, hlists fun name hname hforeign => ?_⟩
    rw [hdocuments, List.mem_map] at hname
    rcases hname with ⟨l, hl, rfl⟩
    exact absurd rfl (hforeign l hl)
  refine ⟨rfl, htimely, by decide, d', rfl, fun i hi => (hread i hi).1, ?_, ?_⟩
  · rcases (hread _ (show _ ∈ memory from List.mem_cons_self)).2.2 with ⟨ps, hps⟩
    exact ⟨ps, hps, fun i hi => (hread i hi).2.1 ps d' hps⟩
  · rcases hkeep : (Descriptor.keep (.ofRoot (Path.ofText ".")) kept).on d' with ⟨r, d''⟩
    rw [hkeep] at hkept
    cases r with
    | error f => exact absurd hkept (by simp [Except.isOk, Except.toBool])
    | ok file =>
        exact ⟨file, d'', rfl, (records_read_back rfl htimely hplay kept.createdAt).2 _ kept d' file d''
          (by decide) hkeep⟩

end Journal

end RouteScaffold
