import RouteScaffold.Proofs.Journal.Persisting

/-!
# Listing What Is Pending

The folder of a journal may hold anything: files of any bytes, documents of another shape,
and folders. Whatever opens as a file and is a valid document is listed, the oldest first,
and the rest is passed over. Two things are not passed over. A file whose bytes spell no
text ends the listing with that fault, and so do moments of which one is marked with a zone
and another is not, since these have no order.

So the listing fails on some folders. The lemmas here say on which, and with what: the
listing is a function of what each name in the folder stands for.

## Main definitions

* `Journal.flawOf?`: Why a file is no text.
* `Journal.intentOf?`: The intent in a file.
* `Journal.intents`: All intents in a folder.
* `Timestamp.Comparable`: Moments that can be compared with one another.

## Theorems

* `oldestFirst_eq_ok`, `oldestFirst_sorted`: When intents have an order, and which.
* `on_pending`: What is listed, by the names in the folder.
* `pending_eq_ok`: When a listing succeeds, and what it is then.
* `pending_eq_error`: When it fails, and with which fault.
-/

namespace RouteScaffold

open Job Disk

/-! ### The order of moments -/

namespace Timestamp

/-- Moments of which all are marked with a zone, or none: these can be compared with one
    another. -/
def Comparable (ts : List Timestamp) : Prop :=
  (∀ t ∈ ts, t.isMarked = true) ∨ ∀ t ∈ ts, t.isMarked = false

instance (ts : List Timestamp) : Decidable (Comparable ts) := inferInstanceAs (Decidable (_ ∨ _))

variable {a b c : Timestamp}

/-- A moment does not lie after another one. -/
def NotAfter (a b : Timestamp) : Prop := b.isBefore? a = some false

theorem notAfter_iff : NotAfter a b ↔ a.isMarked = b.isMarked ∧ a.instant ≤ b.instant := by
  rw [NotAfter, isBefore?]
  by_cases h : b.isMarked = a.isMarked
  · rw [if_pos h, Option.some.injEq, decide_eq_false_iff_not, Int.not_lt]
    exact ⟨fun hle => ⟨h.symm, hle⟩, fun hle => hle.2⟩
  · rw [if_neg h]
    exact ⟨fun hn => absurd hn (by simp), fun hle => absurd hle.1.symm h⟩

theorem NotAfter.trans (hab : NotAfter a b) (hbc : NotAfter b c) : NotAfter a c := by
  rw [notAfter_iff] at hab hbc ⊢
  exact ⟨hab.1.trans hbc.1, Int.le_trans hab.2 hbc.2⟩

/-- One that lies before another does not lie after it. -/
theorem notAfter_of_isBefore (h : a.isBefore? b = some true) : NotAfter a b := by
  rw [isBefore?] at h
  split at h
  · next heq => exact notAfter_iff.mpr ⟨heq, Int.le_of_lt (of_decide_eq_true (Option.some.inj h))⟩
  · exact absurd h (by simp)

/-- Of two moments that can be compared, one does not lie after the other. -/
theorem notAfter_of_not_isBefore (hab : a.isMarked = b.isMarked) (h : b.isBefore? a ≠ some true) :
    NotAfter a b := by
  rw [isBefore?, if_pos hab.symm] at h
  exact notAfter_iff.mpr ⟨hab, Int.not_lt.mp fun hlt => h (congrArg some (decide_eq_true hlt))⟩

end Timestamp

namespace Journal

open Timestamp

variable {j : Journal} {i : Intent} {is ps : List Intent} {d d' : Disk} {now : Timestamp} {name : Text}

/-- Intents are in order if none begins after a later one. -/
def Ordered (is : List Intent) : Prop := is.Pairwise fun a b => NotAfter a.startedAt b.startedAt

/-- An intent that is put in its place leaves intents in order. -/
theorem ordered_placeByTime (h : Ordered is) (hcomp : ∀ k ∈ is, i.startedAt.isMarked = k.startedAt.isMarked) :
    Ordered (placeByTime i is) := by
  induction is with
  | nil => exact List.pairwise_singleton _ _
  | cons k is ih =>
      rcases List.pairwise_cons.mp h with ⟨hk, his⟩
      rw [placeByTime]
      split
      · next hbefore =>
          refine List.pairwise_cons.mpr ⟨fun l hl => ?_, ih his fun l hl => hcomp l (by simp [hl])⟩
          rcases List.mem_cons.mp ((placeByTime_perm i is).mem_iff.mp hl) with rfl | hl
          · exact notAfter_of_isBefore hbefore
          · exact hk l hl
      -- It stands in front of the first one, and so of all the others.
      · next hbefore =>
          have hik : NotAfter i.startedAt k.startedAt := notAfter_of_not_isBefore (hcomp k (by simp)) hbefore
          refine List.pairwise_cons.mpr ⟨fun l hl => ?_, h⟩
          rcases List.mem_cons.mp hl with rfl | hl
          · exact hik
          · exact hik.trans (hk l hl)

theorem ordered_foldr_placeByTime (h : Comparable (is.map Intent.startedAt)) : Ordered (is.foldr placeByTime []) := by
  induction is with
  | nil => exact List.Pairwise.nil
  | cons i is ih =>
      have hrest : Comparable (is.map Intent.startedAt) :=
        h.imp (fun hall t ht => hall t (by simp [List.mem_map.mp ht]))
          fun hall t ht => hall t (by simp [List.mem_map.mp ht])
      refine ordered_placeByTime (ih hrest) fun k hk => ?_
      have hmem : k ∈ is := (foldr_placeByTime_perm is).mem_iff.mp hk
      have hk' : k.startedAt ∈ (i :: is).map Intent.startedAt := List.mem_map.mpr ⟨k, by simp [hmem], rfl⟩
      have hi' : i.startedAt ∈ (i :: is).map Intent.startedAt := List.mem_map.mpr ⟨i, by simp, rfl⟩
      rcases h with hall | hall
      · exact (hall _ hi').trans (hall _ hk').symm
      · exact (hall _ hi').trans (hall _ hk').symm

/-- Intents have an order if their moments can be compared with one another. -/
theorem oldestFirst_eq_ok :
    oldestFirst is = .ok ps ↔ Comparable (is.map Intent.startedAt) ∧ ps = is.foldr placeByTime [] := by
  have hcomp : (is.all (·.startedAt.isMarked) || is.all (!·.startedAt.isMarked)) = true ↔
      Comparable (is.map Intent.startedAt) := by
    rw [Bool.or_eq_true, List.all_eq_true, List.all_eq_true, Comparable, List.forall_mem_map, List.forall_mem_map]
    refine or_congr_right (forall₂_congr fun i _ => ?_)
    rw [Bool.not_eq_true']
  rw [oldestFirst]
  split
  · next hall => exact ⟨fun h => ⟨hcomp.mp hall, (Except.ok.inj h).symm⟩, fun h => congrArg Except.ok h.2.symm⟩
  · next hall => exact ⟨fun h => absurd h (by simp), fun h => absurd (hcomp.mpr h.1) hall⟩

theorem oldestFirst_eq_error {f : Fault} : oldestFirst is = .error f ↔
    f = .wrongType ∧ ¬ Comparable (is.map Intent.startedAt) := by
  cases h : oldestFirst is with
  | ok ps => exact ⟨fun heq => absurd heq (by simp), fun hf => absurd (oldestFirst_eq_ok.mp h).1 hf.2⟩
  | error f' =>
      have hf' : f' = .wrongType := by
        rw [oldestFirst] at h
        split at h
        · exact absurd h (by simp)
        · exact (Except.error.inj h).symm
      rw [hf', Except.error.injEq]
      refine ⟨fun heq => ⟨heq.symm, fun hcomp => ?_⟩, fun hf => hf.1.symm⟩
      rw [oldestFirst_eq_ok.mpr ⟨hcomp, rfl⟩] at h
      exact absurd h (by simp)

/-! ### What is in the folder -/

/-- Why the bytes of a file in the folder of a journal spell no text, if they do not. -/
def flawOf? (j : Journal) (d : Disk) (name : Text) : Option Utf8.Fault :=
  match d.opened (j.folder / name) with
  | .ok (_, c) =>
    match c.read with
    | .ok _ => none
    | .error f => some f
  | .error _ => none

/-- The intent in a file in the folder of a journal: its bytes spell a valid document. -/
def intentOf? (j : Journal) (now : Timestamp) (d : Disk) (name : Text) : Option Intent :=
  match d.opened (j.folder / name) with
  | .ok (_, c) =>
    match c.read with
    | .ok t => Intent.ofDocument? now t.unifyEndings
    | .error _ => none
  | .error _ => none

/-- All intents in the folder of a journal, file by file. -/
def intents (j : Journal) (now : Timestamp) (d : Disk) : List Intent :=
  (documentsIn d j.folder).filterMap (j.intentOf? now d)

/-- A file is looked into by what it stands for. -/
theorem on_intentIn_eq (j : Journal) (now : Timestamp) (d : Disk) (name : Text) :
    (intentIn? now (j.folder / name)).on d = (match j.flawOf? d name with
      | some f => .error (.undecodable f)
      | none => .ok (j.intentOf? now d name), d) := by
  rw [on_intentIn, flawOf?, intentOf?]
  cases d.opened (j.folder / name) with
  | error e => rfl
  | ok o =>
      dsimp only
      cases o.2.read <;> rfl

/-- Files are looked into one after the other, up to the first one that is no text. -/
theorem on_mapM_intentIn (j : Journal) (now : Timestamp) (d : Disk) (names : List Text) :
    (names.mapM fun name => intentIn? now (j.folder / name)).on d = (match names.findSome? (j.flawOf? d) with
      | some f => .error (.undecodable f)
      | none => .ok (names.map (j.intentOf? now d)), d) := by
  induction names with
  | nil => rfl
  | cons name names ih =>
      have hname := on_intentIn_eq j now d name
      rw [List.mapM_cons, List.findSome?_cons]
      cases hflaw : j.flawOf? d name with
      | some f =>
          rw [hflaw] at hname
          rw [on_bind_error hname]
      | none =>
          rw [hflaw] at hname
          rw [on_bind_ok hname]
          dsimp only
          -- The first flaw ends the run, so that of the first name comes before those of the others.
          cases hrest : names.findSome? (j.flawOf? d) with
          | some f =>
              rw [hrest] at ih
              rw [on_bind_error ih]
          | none =>
              rw [hrest] at ih
              rw [on_bind_ok ih]
              rfl

/-! ### The listing -/

section

variable (hfolder : (isFolder j.folder).on d = (.ok true, d))
include hfolder

/-- What is listed, by the names in the folder. -/
theorem on_pending : (j.pending now).on d = (match (documentsIn d j.folder).findSome? (j.flawOf? d) with
    | some f => .error (.undecodable f)
    | none => oldestFirst (j.intents now d), d) := by
  have hfound := on_mapM_intentIn j now d (documentsIn d j.folder)
  rw [on_pending_of_folder hfolder]
  cases hflaw : (documentsIn d j.folder).findSome? (j.flawOf? d) with
  | some f =>
      rw [hflaw] at hfound
      rw [on_bind_error hfound]
  | none =>
      rw [hflaw] at hfound
      rw [on_bind_ok hfound, on_ofExcept, List.filterMap_map]
      rfl

/-- A listing succeeds if all files are texts and the moments can be compared. It is then
    made of all intents in the folder, each begun no later than the next. -/
theorem pending_eq_ok : (j.pending now).on d = (.ok ps, d') ↔ d' = d
    ∧ (∀ name ∈ documentsIn d j.folder, j.flawOf? d name = none) ∧ Comparable ((j.intents now d).map Intent.startedAt)
    ∧ ps = (j.intents now d).foldr placeByTime [] := by
  rw [on_pending hfolder, Prod.mk.injEq, ← List.findSome?_eq_none_iff]
  cases (documentsIn d j.folder).findSome? (j.flawOf? d) with
  | some f => simp
  | none =>
      rw [oldestFirst_eq_ok]
      exact ⟨fun h => ⟨h.2.symm, rfl, h.1⟩, fun h => ⟨h.2.2, h.1.symm⟩⟩

/-- A listing fails at the first file that is no text, or else at moments that cannot be
    compared. -/
theorem pending_eq_error {f : Fault} : (j.pending now).on d = (.error f, d') ↔ d' = d
    ∧ ((∃ flaw, (documentsIn d j.folder).findSome? (j.flawOf? d) = some flaw ∧ f = .undecodable flaw)
      ∨ ((∀ name ∈ documentsIn d j.folder, j.flawOf? d name = none)
        ∧ ¬ Comparable ((j.intents now d).map Intent.startedAt) ∧ f = .wrongType)) := by
  rw [on_pending hfolder, Prod.mk.injEq, ← List.findSome?_eq_none_iff]
  cases (documentsIn d j.folder).findSome? (j.flawOf? d) with
  | some flaw => simp [eq_comm, and_comm]
  | none =>
      rw [oldestFirst_eq_error]
      constructor
      · rintro ⟨⟨hf, hmixed⟩, hd⟩
        exact ⟨hd.symm, Or.inr ⟨rfl, hmixed, hf⟩⟩
      · rintro ⟨hd, ⟨flaw, hflaw, -⟩ | ⟨-, hmixed, hf⟩⟩
        · exact absurd hflaw (by simp)
        · exact ⟨⟨hf, hmixed⟩, hd.symm⟩

end

end Journal

end RouteScaffold
