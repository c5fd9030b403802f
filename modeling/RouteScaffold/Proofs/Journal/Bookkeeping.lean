import RouteScaffold.Proofs.Disk.Beside
import RouteScaffold.Proofs.Disk.Opening

/-!
# What Keeping Intents Changes

Keeping an intent writes in the tool's own folder only: the two folders that lead
to the intents, if they are missing, and one document. It is never refused in a
tree in which those places hold folders or nothing, and the path of the root
leaves room for the names. So a plan that stays beside the tool's own folder is
followed in the same way whether intents are kept or not: it meets the same files
and the same refusals, and it leaves the same tree outside that folder.

When the plan has come to its end, the document is gone, and every other intent
is as it was.

## Main definitions

* `Disk.Orderly`: A tree in which intents can be kept.
* `Disk.Tends`: What lies in the tool's own folder while a plan is followed.
* `Step.Off`, `Step.Beside`: A step that stays beside the tool's own folder.

## Theorems

* `tends_save`, `tends_drop`: Saving and dropping an intent.
* `match_take`, `match_followed`, `match_track`: Steps, plans and commands under
  two journals, one of which may keep nothing.
* `pending_of_tends`: The intents that are pending when the document is gone.
-/

namespace RouteScaffold

open Job Disk RouteScaffold.Tree Location

namespace Disk

/-- The tool's own folder below a root. -/
def ownPlace (here : Location) (root : Path) : Location := spot here root ++ [".aviators".toList]

/-- The folder of intents below a root. -/
def intentsPlace (here : Location) (root : Path) : Location := spot here root ++ intentsWay

/-- The folders through which the path of a root leads, and those above it. -/
def OnWay (here : Location) (root : Path) (l : Location) : Prop := l ∈ way here root ∨ l <+: spot here root

/-- A project tree in which intents can be kept: its root is a folder, there is room
    for the paths of an intent, and the tool's own folder and that of the intents are
    folders or absent. -/
structure Orderly (d : Disk) (root : Path) : Prop where
  closed : d.tree.Closed
  named : ∀ n ∈ d.here, n ≠ ['.', '.'] ∧ '\x00' ∉ n
  found : d.find root = .ok (spot d.here root)
  isFolder : d.tree.get? (spot d.here root) = some .folder
  roomy : Roomy d.here root
  shelves : ∀ ys, ys <+: intentsWay → d.tree.get? (spot d.here root ++ ys) = some .folder
    ∨ d.tree.get? (spot d.here root ++ ys) = none
  names : ∀ n ∈ d.tree.namesIn (intentsPlace d.here root), Path.IsName n

/-- What lies in the tool's own folder while a plan is followed: the folders for
    intents may have been made, one document may be there, and everything else is as it
    was. The way to the root is as it was, too. -/
structure Tends (root : Path) (name : Text) (d₀ d : Disk) : Prop where
  here : d.here = d₀.here
  way : ∀ l, OnWay d₀.here root l → d.tree.get? l = some .folder
  shelves : ∀ ys, ys <+: intentsWay → d.tree.get? (spot d₀.here root ++ ys) = some .folder
    ∨ d.tree.get? (spot d₀.here root ++ ys) = none ∧ d₀.tree.get? (spot d₀.here root ++ ys) = none
  filed : d.tree.get? (intentsPlace d₀.here root ++ [name]) ≠ none →
    ∀ ys, ys <+: intentsWay → d.tree.get? (spot d₀.here root ++ ys) = some .folder
  free : d.tree.get? (intentsPlace d₀.here root ++ [name]) ≠ some .folder
  others : ∀ l, ownPlace d₀.here root <+: l → (∀ ys, ys <+: intentsWay → l ≠ spot d₀.here root ++ ys) →
    l ≠ intentsPlace d₀.here root ++ [name] → d.tree.get? l = d₀.tree.get? l
  names : (d.tree.namesIn (intentsPlace d₀.here root)).filter (· ≠ name)
    = d₀.tree.namesIn (intentsPlace d₀.here root)

variable {d d₀ : Disk} {root : Path} {name : Text} {here : Location} {w : Write} {ws : List Write}

/-! ### Places in the tool's own folder -/

theorem own_prefix_shelf {ys : List Text} (hys : ys <+: intentsWay) (hne : ys ≠ []) :
    ownPlace here root <+: spot here root ++ ys := by
  cases ys with
  | nil => exact absurd rfl hne
  | cons y ys =>
      rcases hys with ⟨zs, hzs⟩
      rw [intentsWay, List.cons_append, List.cons.injEq] at hzs
      exact ⟨ys, by rw [ownPlace, List.append_assoc, List.singleton_append, hzs.1]⟩

theorem own_prefix_intents : ownPlace here root <+: intentsPlace here root :=
  own_prefix_shelf (List.prefix_refl _) (by decide)

theorem own_prefix_document : ownPlace here root <+: intentsPlace here root ++ [name] :=
  own_prefix_intents.trans (List.prefix_append _ _)

theorem document_ne_shelf {ys : List Text} (hys : ys <+: intentsWay) :
    intentsPlace here root ++ [name] ≠ spot here root ++ ys := by
  intro heq
  have hlen := congrArg List.length heq
  have hle := hys.length_le
  simp only [intentsPlace, List.length_append, List.length_singleton] at hlen
  omega

/-- A root with a short path leaves room. -/
theorem roomy_of_short (hnull : ∀ n ∈ root.names ++ spot here root, '\x00' ∉ n)
    (hsizes : ∀ n ∈ spot here root, Utf8.size n ≤ nameLimit)
    (hnear : Path.room root.names + 42 ≤ pathLimit) (habsolute : Path.room (spot here root) + 55 ≤ pathLimit) :
    Roomy here root := by
  -- All three bounds are read off the sizes of texts; only the anchor adds to the names.
  have hanchor : Utf8.size root.anchor.text ≤ 2 := by cases root.anchor <;> decide
  have hwalkable : ∀ (a : Path.Anchor) ns xs, (∀ n ∈ ns, '\x00' ∉ n) → (∃ n ∈ xs, n ≠ []) →
      (∀ n ∈ xs, '\x00' ∉ n) → Utf8.size a.text + Path.room ns + Path.room xs ≤ pathLimit →
      unwalkable? ⟨a, ns ++ xs⟩ = none := by
    rintro a ns xs hns ⟨n, hn, hne⟩ hxs hsize
    refine unwalkable?_eq_none.mpr ⟨fun m hm => (List.mem_append.mp hm).elim (hns m) (hxs m), ?_⟩
    have htext := Path.size_text ⟨a, ns ++ xs⟩ ⟨n, List.mem_append_right _ hn, hne⟩
    rw [Path.room_append] at htext
    dsimp only at htext
    omega
  have hroot : Utf8.size Path.Anchor.root.text = 1 := by decide
  refine ⟨fun xs hne hxs hroom => ?_, fun xs hne hxs hroom => ?_, hsizes⟩
  · exact hwalkable _ _ _ (fun n hn => hnull n (List.mem_append_left _ hn)) hne hxs (by omega)
  · exact hwalkable _ _ _ (fun n hn => hnull n (List.mem_append_right _ hn)) hne hxs (by omega)

/-- What is written in a folder leaves a disk alike outside it. -/
theorem Alike.made_within {own : Location} (hadmits : d.tree.Admits w) (hown : own <+: w.place) :
    d.Alike own (d.made w) := by
  refine ⟨rfl, fun l hl => (get?_apply_of_ne hadmits ?_).symm⟩
  rintro rfl
  exact hl hown

/-! ### Tending the folder -/

namespace Orderly

theorem above (h : d.Orderly root) : ∀ ys, ys <+: spot d.here root → d.tree.get? ys = some .folder := by
  intro ys hys
  by_cases hsame : ys = spot d.here root
  · rw [hsame]
    exact h.isFolder
  · exact h.closed.get?_of_prefix (by rw [h.isFolder]; simp) hys hsame

theorem firm (h : d.Orderly root) : d.Firm root := ⟨h.named, h.found, h.above⟩

/-- A folder of intents lies in a folder. -/
theorem folder_of_intents (h : d.Orderly root)
    (hfolder : d.tree.get? (intentsPlace d.here root) = some .folder) :
    ∀ ys, ys <+: intentsWay → d.tree.get? (spot d.here root ++ ys) = some .folder := by
  intro ys hys
  rcases h.shelves ys hys with hys' | hnone
  · exact hys'
  · have hpre : spot d.here root ++ ys <+: intentsPlace d.here root := (List.prefix_append_right_inj _).mpr hys
    rw [h.closed.get?_below hnone hpre] at hfolder
    simp at hfolder

/-- Before a plan is followed, where the document is absent. -/
theorem tends (h : d.Orderly root) (hfree : d.tree.get? (intentsPlace d.here root ++ [name]) = none) :
    Tends root name d d := by
  refine ⟨rfl, fun l hl => ?_, fun ys hys => ?_, fun hne => absurd hfree hne, by rw [hfree]; simp,
    fun _ _ _ _ => rfl, ?_⟩
  · rcases hl with hl | hl
    · exact way_of_find h.found l hl
    · exact h.above l hl
  · rcases h.shelves ys hys with hfolder | hnone
    · exact Or.inl hfolder
    · exact Or.inr ⟨hnone, hnone⟩
  · refine List.filter_eq_self.mpr fun n hn => ?_
    have := mem_namesIn.mp hn
    simp only [ne_eq, decide_not, Bool.not_eq_true', decide_eq_false_iff_not]
    rintro rfl
    exact this hfree

end Orderly

namespace Tends

variable (h : Tends root name d₀ d)
include h

theorem firm (horderly : d₀.Orderly root) : d.Firm root := by
  refine ⟨fun n hn => horderly.named n (h.here ▸ hn), ?_, fun ys hys => h.way ys (Or.inr (h.here ▸ hys))⟩
  rw [h.here]
  exact find_of_folders horderly.found h.here fun s hs => h.way s (Or.inl hs)

/-- A write beside the tool's own folder that erases nothing of the way to it. -/
theorem beside (hw : d.tree.Beside (ownPlace d₀.here root) (OnWay d₀.here root) w) :
    Tends root name d₀ (d.made w) := by
  -- A write beside the folder changes nothing inside it, and nothing on the way to it.
  have hsame : ∀ l, ownPlace d₀.here root <+: l → (d.made w).tree.get? l = d.tree.get? l := fun l hl =>
    get?_apply_of_ne hw.1 fun heq => hw.2.1 (heq ▸ hl)
  have hway : ∀ l, OnWay d₀.here root l → (d.made w).tree.get? l = some .folder := fun l hl =>
    Runs.beside_spared (Runs.singleton hw) hl (h.way l hl)
  have hshelf : ∀ ys, ys <+: intentsWay →
      (d.made w).tree.get? (spot d₀.here root ++ ys) = d.tree.get? (spot d₀.here root ++ ys) := by
    intro ys hys
    by_cases hne : ys = []
    · have hon : OnWay d₀.here root (spot d₀.here root ++ ys) := Or.inr (by rw [hne, List.append_nil])
      rw [hway _ hon, h.way _ hon]
    · exact hsame _ (own_prefix_shelf hys hne)
  refine ⟨h.here, hway, fun ys hys => ?_, fun hne ys hys => ?_, ?_, fun l hl hshelves hdoc => ?_, ?_⟩
  · rw [hshelf ys hys]
    exact h.shelves ys hys
  · rw [hshelf ys hys]
    rw [hsame _ own_prefix_document] at hne
    exact h.filed hne ys hys
  · rw [hsame _ own_prefix_document]
    exact h.free
  · rw [hsame l hl]
    exact h.others l hl hshelves hdoc
  · exact (Runs.beside_names (Runs.singleton hw) own_prefix_intents name).trans h.names

/-- A folder for intents is made. -/
theorem opens (hw : d.tree.Opens (spot d₀.here root) intentsWay w) :
    Tends root name d₀ (d.made w) ∧ d.Alike (ownPlace d₀.here root) (d.made w) := by
  rcases hw with ⟨ys, hys, rfl, hnone⟩
  have hadmits : d.tree.Admits (.put (spot d₀.here root ++ ys) .folder) := hnone
  -- What is made is a folder that was missing, so not the root itself.
  have hne : ys ≠ [] := by
    rintro rfl
    rw [List.append_nil, h.way _ (Or.inr (List.prefix_refl _))] at hnone
    simp at hnone
  have hget := get?_apply_put hadmits
  have hkeep : ∀ l, d.tree.get? l = some .folder →
      (d.made (.put (spot d₀.here root ++ ys) .folder)).tree.get? l = some .folder := fun _ =>
    hadmits.keeps_folder
  have hdoc := (hget (intentsPlace d₀.here root ++ [name])).trans (if_neg (document_ne_shelf hys))
  refine ⟨⟨h.here, fun l hl => hkeep l (h.way l hl), fun zs hzs => ?_, fun hthere zs hzs => ?_, ?_,
    fun l hl hshelves hother => ?_, ?_⟩, .made_within hadmits (own_prefix_shelf hys hne)⟩
  · rcases h.shelves zs hzs with hfolder | ⟨hzs', hzs₀⟩
    -- A shelf that was missing is made now, or is missing still.
    · exact Or.inl (hkeep _ hfolder)
    · by_cases hsame : zs = ys
      · exact Or.inl ((hget _).trans (if_pos (by rw [hsame])))
      · exact Or.inr ⟨(hget _).trans (by rw [if_neg fun heq => hsame (List.append_cancel_left heq), hzs']),
          hzs₀⟩
  · exact hkeep _ (h.filed (by rwa [← hdoc]) zs hzs)
  · exact fun hfolder => h.free (hdoc.symm.trans hfolder)
  · exact ((hget l).trans (if_neg (hshelves ys hys))).trans (h.others l hl hshelves hother)
  · refine (filter_namesIn_apply fun m hm => ?_).trans h.names
    -- No folder on the way has the name of a document.
    exact absurd hm.symm (document_ne_shelf hys)

/-- The document is written. -/
theorem files {c : Content}
    (hfolders : ∀ ys, ys <+: intentsWay → d.tree.get? (spot d₀.here root ++ ys) = some .folder) :
    Tends root name d₀ (d.made (.put (intentsPlace d₀.here root ++ [name]) (.file c)))
      ∧ d.Alike (ownPlace d₀.here root)
        (d.made (.put (intentsPlace d₀.here root ++ [name]) (.file c))) := by
  have hadmits : d.tree.Admits (.put (intentsPlace d₀.here root ++ [name]) (.file c)) := h.free
  have hget := get?_apply_put hadmits
  -- The document is put where there was no folder, so every folder stays.
  have hkeep : ∀ l, d.tree.get? l = some .folder →
      (d.made (.put (intentsPlace d₀.here root ++ [name]) (.file c))).tree.get? l = some .folder := fun _ =>
    hadmits.keeps_folder
  refine ⟨⟨h.here, fun l hl => hkeep l (h.way l hl), fun ys hys => Or.inl (hkeep _ (hfolders ys hys)),
    fun _ ys hys => hkeep _ (hfolders ys hys), ?_, fun l hl hshelves hother => ?_, ?_⟩,
    .made_within hadmits own_prefix_document⟩
  · exact fun hfolder => by simpa using ((hget _).trans (if_pos rfl)).symm.trans hfolder
  · exact ((hget l).trans (if_neg hother)).trans (h.others l hl hshelves hother)
  · refine (filter_namesIn_apply fun m hm => ?_).trans h.names
    exact (List.singleton_inj.mp (List.append_cancel_left hm)).symm

/-- The document is erased. -/
theorem clears : Tends root name d₀ (d.made (.erase (intentsPlace d₀.here root ++ [name])))
    ∧ d.Alike (ownPlace d₀.here root) (d.made (.erase (intentsPlace d₀.here root ++ [name])))
    ∧ (d.made (.erase (intentsPlace d₀.here root ++ [name]))).tree.get?
        (intentsPlace d₀.here root ++ [name]) = none := by
  have hadmits : d.tree.Admits (.erase (intentsPlace d₀.here root ++ [name])) := trivial
  have hget : ∀ l, l ≠ intentsPlace d₀.here root ++ [name] →
      (d.made (.erase (intentsPlace d₀.here root ++ [name]))).tree.get? l = d.tree.get? l := fun _ =>
    get?_apply_of_ne hadmits
  have hgone : (d.made (.erase (intentsPlace d₀.here root ++ [name]))).tree.get?
      (intentsPlace d₀.here root ++ [name]) = none :=
    (get?_apply_erase _ _).trans (if_pos ⟨rfl, by simp⟩)
  have hkeep : ∀ l, d.tree.get? l = some .folder →
      (d.made (.erase (intentsPlace d₀.here root ++ [name]))).tree.get? l = some .folder := by
    -- What is erased was no folder, so every folder stays.
    intro l hl
    rw [hget l fun heq => h.free (heq ▸ hl), hl]
  refine ⟨⟨h.here, fun l hl => hkeep l (h.way l hl), fun ys hys => ?_, fun hthere => absurd hgone hthere, ?_,
    fun l hl hshelves hother => (hget l hother).trans (h.others l hl hshelves hother), ?_⟩,
    .made_within hadmits own_prefix_document, hgone⟩
  · rw [hget _ (document_ne_shelf hys).symm]
    exact h.shelves ys hys
  · rw [hgone]
    simp
  · refine (filter_namesIn_apply fun m hm => ?_).trans h.names
    exact (List.singleton_inj.mp (List.append_cancel_left hm)).symm

end Tends

end Disk

/-! ### Saving and dropping an intent -/

namespace Journal

variable {j k : Journal} {i : Intent} {root : Path} {d d₀ : Disk} {id : Text}

section Tending

variable (horderly : d₀.Orderly root) (hj : j.Set root) (hid : Intent.IsIdentifier i.id)
include horderly hj hid

/-- Saving an intent is never refused, and changes nothing outside the tool's own
    folder. -/
theorem tends_save (h : Tends root (i.id ++ ".json".toList) d₀ d) : ∃ d', (j.save i).on d = (.ok (), d')
    ∧ Tends root (i.id ++ ".json".toList) d₀ d' ∧ d.Alike (ownPlace d₀.here root) d' := by
  rcases document_names hid with ⟨hdots, hnull, hroom⟩
  cases hkeeps : j.keeps with
  -- Without journaling nothing is saved.
  | false =>
      refine ⟨d, ?_, h, .refl _ d⟩
      rw [save, hkeeps]
      rfl
  | true =>
      have hfirm := h.firm horderly
      -- The folders of the journal are near enough to the root to be walked to.
      have hwalk : ∀ ys, ys <+: intentsWay → unwalkable? (root.below ys) = none := by
        intro ys hys
        cases ys with
        | nil => simpa [Path.below] using (find_eq hfirm.found).1
        | cons y ys =>
            have hmem : ∀ n ∈ y :: ys, n ≠ [] ∧ '\x00' ∉ n := fun n hn =>
              (show ∀ n ∈ intentsWay, n ≠ [] ∧ '\x00' ∉ n by decide) n (hys.subset hn)
            refine horderly.roomy.near _ ⟨y, by simp, (hmem y (by simp)).1⟩ (fun n hn => (hmem n hn).2) ?_
            rcases hys with ⟨zs, hzs⟩
            have hle := Path.room_append (y :: ys) zs
            rw [hzs, show Path.room intentsWay = 18 from by decide] at hle
            omega
      have hopen : ∀ ys, ys <+: intentsWay → d.tree.get? (spot d.here root ++ ys) = some .folder
          ∨ d.tree.get? (spot d.here root ++ ys) = none := by
        intro ys hys
        rw [h.here]
        exact (h.shelves ys hys).imp_right And.left
      rcases on_folders_open hfirm.found hfirm.isFolder (by decide) (by decide) hwalk hopen
        with ⟨ws, hfolders, hruns, hshelves⟩
      rw [h.here] at hruns hshelves
      -- Each folder that is made on the way is one that was missing, which keeps the invariant.
      have hafter := hruns.after_preserves
        (I := fun e => Tends root (i.id ++ ".json".toList) d₀ e ∧ d.Alike (ownPlace d₀.here root) e)
        ⟨h, .refl _ d⟩ fun e w he hw => ⟨(he.1.opens hw).1, he.2.trans (he.1.opens hw).2⟩
      have hfirm' := hafter.1.firm horderly
      have hhere : (d.after ws).here = d₀.here := hafter.1.here
      -- With the folders there, the document can be put into place.
      have hreplace : (d.after ws).replaceable (j.file i.id)
          = .ok (intentsPlace d₀.here root ++ [i.id ++ ".json".toList]) := by
        have hfound := hfirm'.replaceable_of_roomy (hhere.symm ▸ horderly.roomy) hdots (by simp) hnull (by omega)
          (by rw [hhere]; exact hshelves) (by
            rw [hhere, ← List.append_assoc]
            exact hafter.1.free)
        rw [hhere, ← file_below hj hid] at hfound
        rw [hfound, intentsPlace, List.append_assoc]
      have hfiles := @Tends.files _ _ _ _ hafter.1 (.text i.document) hshelves
      refine ⟨_, ?_, hfiles.1, hafter.2.trans hfiles.2⟩
      rw [save, hkeeps, if_pos rfl, show j.folder = root.below intentsWay from hj, on_bind_ok hfolders, on_replace,
        hreplace]

/-- Dropping an intent is never refused, changes nothing outside the tool's own
    folder, and leaves no document. -/
theorem tends_drop (h : Tends root (i.id ++ ".json".toList) d₀ d) : ∃ d', (j.drop i).on d = (.ok (), d')
    ∧ Tends root (i.id ++ ".json".toList) d₀ d' ∧ d.Alike (ownPlace d₀.here root) d'
    ∧ d'.tree.get? (intentsPlace d₀.here root ++ [i.id ++ ".json".toList]) = none := by
  rcases document_names hid with ⟨hdots, hnull, hroom⟩
  have hfirm := h.firm horderly
  have hsize : ∀ n ∈ intentsWay ++ [i.id ++ ".json".toList], Utf8.size n ≤ nameLimit := by
    intro n hn
    have := size_le_room hn
    have : 40 ≤ nameLimit := by decide
    omega
  have hwalk : unwalkable? (root.below (intentsWay ++ [i.id ++ ".json".toList])) = none :=
    horderly.roomy.near _ ⟨i.id ++ ".json".toList, by simp, by simp⟩ hnull (by omega)
  -- Whatever is on the way is a folder or missing, so the document is found or the way ends.
  have hopen : ∀ ns n ms, intentsWay ++ [i.id ++ ".json".toList] = ns ++ n :: ms →
      d.tree.get? (spot d.here root ++ ns) = some .folder ∨ d.tree.get? (spot d.here root ++ ns) = none := by
    intro ns n ms heq
    rw [h.here]
    exact (h.shelves ns (prefix_of_concat heq)).imp_right And.left
  rcases find_open hfirm.found hdots hsize hwalk hopen with ⟨hfound, -⟩ | ⟨hmissing, ns, n, ms, heq, hnone⟩
  · rw [← file_below hj hid, h.here, ← List.append_assoc] at hfound
    change d.find _ = .ok (intentsPlace d₀.here root ++ [i.id ++ ".json".toList]) at hfound
    cases he : d.tree.get? (intentsPlace d₀.here root ++ [i.id ++ ".json".toList]) with
    | none =>
        refine ⟨d, ?_, h, .refl _ d, he⟩
        rw [drop, on_unlinkIfPresent, opened, hfound]
        dsimp only
        rw [he]
    | some entry =>
        cases entry with
        | folder => exact absurd he h.free
        | file c => exact ⟨_, on_drop_of_opened (opened_of_find hfound he), h.clears⟩
  · -- A document that is there lies in folders.
    have hgone : d.tree.get? (intentsPlace d₀.here root ++ [i.id ++ ".json".toList]) = none := by
      by_contra hthere
      rw [h.here, h.filed hthere ns (prefix_of_concat heq)] at hnone
      simp at hnone
    refine ⟨d, ?_, h, .refl _ d, hgone⟩
    rw [drop, on_unlinkIfPresent, opened, file_below hj hid, hmissing]

end Tending

end Journal

/-! ### Steps and plans -/

/-- A step none of whose paths leads into a folder. -/
def Step.Off (own here : Location) : Step → Prop
  | .record _ => True
  | .snapshot p | .snapshotIfPresent p | .folder p | .newFile p _ | .file p _ | .edit p _
  | .editIfPresent p _ | .remove p _ => Disk.Off own here p

/-- A step that stays beside the tool's own folder, and removes nothing of the way to
    it. -/
def Step.Beside (here : Location) (root : Path) (s : Step) : Prop :=
  s.Off (ownPlace here root) here
    ∧ ∀ p missingOk, s = .remove p missingOk → ∀ l, OnWay here root l → ¬ spot here p <+: l

namespace Job

variable {here : Location} {root p : Path} {name : Text} {d₀ : Disk} {α : Type}

/-- A blind job that writes beside the tool's own folder is the same under every
    journal. -/
theorem Blind.tends {j : Job α} (hj : Blind (ownPlace d₀.here root) d₀.here j)
    (hdoes : Does d₀.here (Beside (ownPlace d₀.here root) (OnWay d₀.here root)) j) :
    Match (ownPlace d₀.here root) (Tends root name d₀) j j :=
  hj.match hdoes (fun _ h => h.here) fun _ _ h hw => h.beside hw

theorem beside_remove_of_way {missingOk : Bool} (hp : Off (ownPlace here root) here p)
    (hway : ∀ l, OnWay here root l → ¬ spot here p <+: l) :
    Does here (Beside (ownPlace here root) (OnWay here root)) (remove p missingOk) := by
  refine beside_remove hp (fun hpre => ?_) hway
  rcases List.prefix_concat_iff.mp hpre with heq | hpre
  · exact hp.spot (by rw [heq]; exact List.prefix_refl _)
  · exact hway _ (Or.inr (List.prefix_refl _)) hpre

end Job

namespace Journal

variable {j k : Journal} {i : Intent} {root p : Path} {d₀ : Disk} {id : Text}

section Two

variable (horderly : d₀.Orderly root) (hj : j.Set root) (hk : k.Set root) (hid : Intent.IsIdentifier id)
include horderly hj hk hid

theorem match_save (hi : i.id = id) :
    Match (ownPlace d₀.here root) (Tends root (id ++ ".json".toList) d₀) (j.save i) (k.save i) := by
  subst hi
  intro d e hd he h
  rcases tends_save horderly hj hid hd with ⟨d', hjd, hd', hdd'⟩
  rcases tends_save horderly hk hid he with ⟨e', hke, he', hee'⟩
  exact ⟨_, d', e', hjd, hke, hd', he', (hdd'.symm.trans h).trans hee'⟩

theorem match_learn (hi : i.id = id) :
    Match (ownPlace d₀.here root) (Tends root (id ++ ".json".toList) d₀) (j.learn i) (k.learn i) :=
  (match_save horderly hj hk hid hi).bind fun _ => match_pure _

theorem match_learnSnapshot (hi : i.id = id) (hp : Off (ownPlace d₀.here root) d₀.here p) :
    Match (ownPlace d₀.here root) (Tends root (id ++ ".json".toList) d₀)
      (j.learnSnapshot i p) (k.learnSnapshot i p) := by
  have hsnapshot : Blind (ownPlace d₀.here root) d₀.here (snapshotOf p) :=
    (blind_isThere hp).bind fun _ =>
      .ite (fun _ => (blind_readRaw hp).bind fun _ => blind_pure _) fun _ => blind_pure _
  have hwith : Blind (ownPlace d₀.here root) d₀.here (withSnapshotOf i p) := by
    rw [withSnapshotOf]
    exact .ite (fun _ => blind_pure _) fun _ => hsnapshot.bind fun _ => blind_pure _
  rw [learnSnapshot, learnSnapshot]
  split
  · exact match_pure _
  · refine (hwith.tends (does_withSnapshotOf i p)).bind_of fun i' d d' _ hrun => ?_
    exact match_learn horderly hj hk hid ((id_of_withSnapshotOf hrun).trans hi)

/-- A step is taken in the same way under both journals. -/
theorem match_take (hi : i.id = id) {s : Step} (hs : s.Beside d₀.here root) :
    Match (ownPlace d₀.here root) (Tends root (id ++ ".json".toList) d₀) (j.take i s) (k.take i s) := by
  have hdots : ∀ n ∈ d₀.here, n ≠ ['.', '.'] := fun n hn => (horderly.named n hn).1
  -- Every step that leaves the folder of the tool alone does the same with both journals.
  have hthere : ∀ p, Off (ownPlace d₀.here root) d₀.here p →
      Match (ownPlace d₀.here root) (Tends root (id ++ ".json".toList) d₀) (isThere p) (isThere p) :=
    fun p hp => (blind_isThere hp).tends does_isThere
  have hedit : ∀ p e, Off (ownPlace d₀.here root) d₀.here p →
      Match (ownPlace d₀.here root) (Tends root (id ++ ".json".toList) d₀) (edit p e) (edit p e) :=
    fun p e hp => (blind_edit hp hdots e).tends (beside_edit hp e)
  rcases hs with ⟨hs, hremoves⟩
  cases s with
  | record p => exact match_learn horderly hj hk hid hi
  | snapshot p => exact match_learnSnapshot horderly hj hk hid hi hs
  | snapshotIfPresent p =>
      refine (hthere p hs).bind fun there => ?_
      split
      · exact match_learnSnapshot horderly hj hk hid hi hs
      · exact match_pure _
  | folder p => exact ((blind_folders hs).tends (beside_folders hs)).bind fun _ => match_pure _
  | newFile p t => exact ((blind_newFile hs t).tends (beside_newFile hs t)).bind fun _ => match_pure _
  | file p t => exact ((blind_writeText hs t).tends (beside_writeText hs t)).bind fun _ => match_pure _
  | edit p e => exact (hedit p e hs).bind fun _ => match_pure _
  | editIfPresent p e =>
      refine (hthere p hs).bind fun there => ?_
      split
      · exact (hedit p e hs).bind fun _ => match_pure _
      · exact match_pure _
  | remove p missingOk =>
      refine Match.bind ?_ fun _ => match_pure _
      exact (blind_remove hs missingOk).tends (beside_remove_of_way hs (hremoves p missingOk rfl))

/-- A plan is followed in the same way under both journals. -/
theorem match_followed (hi : i.id = id) {plan : List Step} (hplan : ∀ s ∈ plan, s.Beside d₀.here root)
    {d e : Disk} (hd : Tends root (id ++ ".json".toList) d₀ d) (he : Tends root (id ++ ".json".toList) d₀ e)
    (h : d.Alike (ownPlace d₀.here root) e) : ∃ i' r d' e', j.followed i plan d = (i', r, d')
      ∧ k.followed i plan e = (i', r, e') ∧ i'.id = id ∧ Tends root (id ++ ".json".toList) d₀ d'
      ∧ Tends root (id ++ ".json".toList) d₀ e' ∧ d'.Alike (ownPlace d₀.here root) e' := by
  induction plan generalizing i d e with
  | nil => exact ⟨i, _, d, e, followed_nil j i d, followed_nil k i e, hi, hd, he, h⟩
  | cons s plan ih =>
      rcases match_take horderly hj hk hid hi (hplan s (by simp)) d e hd he h
        with ⟨r, d₁, e₁, hjd, hke, hd₁, he₁, h₁⟩
      rw [followed_cons, followed_cons, hjd, hke]
      cases r with
      | error f => exact ⟨i, _, d₁, e₁, rfl, rfl, hi, hd₁, he₁, h₁⟩
      | ok a =>
          rcases a with ⟨i₁, changed⟩
          rcases ih ((id_of_take hjd).trans hi) (fun s' hs' => hplan s' (by simp [hs'])) hd₁ he₁ h₁
            with ⟨i₂, r, d₂, e₂, hjd₂, hke₂, hi₂, hd₂, he₂, h₂⟩
          dsimp only
          rw [hjd₂, hke₂]
          exact ⟨i₂, _, d₂, e₂, rfl, rfl, hi₂, hd₂, he₂, h₂⟩

theorem match_settle (hi : i.id = id) (r : Except Fault Bool) :
    Match (ownPlace d₀.here root) (Tends root (id ++ ".json".toList) d₀) (j.settle i r) (k.settle i r) := by
  cases r with
  | error f =>
      have hsave : Match (ownPlace d₀.here root) (Tends root (id ++ ".json".toList) d₀)
          (j.save (i.withError f.message)) (k.save (i.withError f.message)) :=
        match_save horderly hj hk hid hi
      exact hsave.bind fun _ => match_fail f
  | ok b =>
      subst hi
      refine Match.bind (fun d e hd he h => ?_) fun _ => match_pure b
      rcases tends_drop horderly hj hid hd with ⟨d', hjd, hd', hdd', -⟩
      rcases tends_drop horderly hk hid he with ⟨e', hke, he', hee', -⟩
      exact ⟨_, d', e', hjd, hke, hd', he', (hdd'.symm.trans h).trans hee'⟩

/-- A command is carried out in the same way under both journals. -/
theorem match_track {now : Timestamp} {verb : Text} {args : List Text} {mode : Mode} {plan : List Step}
    (hstart : Intent.identifier verb args mode now = id) (hplan : ∀ s ∈ plan, s.Beside d₀.here root) :
    Match (ownPlace d₀.here root) (Tends root (id ++ ".json".toList) d₀)
      (j.track now verb args mode plan) (k.track now verb args mode plan) := by
  intro d e hd he h
  rcases match_save (i := Intent.start verb args mode now) horderly hj hk hid hstart d e hd he h
    with ⟨r, d₁, e₁, hjd, hke, hd₁, he₁, h₁⟩
  rw [on_track, on_track, hjd, hke]
  cases r with
  | error f => exact ⟨_, d₁, e₁, rfl, rfl, hd₁, he₁, h₁⟩
  | ok u =>
      rcases match_followed (i := Intent.start verb args mode now) horderly hj hk hid hstart hplan hd₁ he₁ h₁
        with ⟨i, r, d₂, e₂, hjd₂, hke₂, hi, hd₂, he₂, h₂⟩
      dsimp only
      rw [hjd₂, hke₂]
      exact match_settle horderly hj hk hid hi r d₂ e₂ hd₂ he₂ h₂

end Two

/-- A command that has come to its end leaves no document. -/
theorem tends_of_track (horderly : d₀.Orderly root) (hj : j.Set root) {now : Timestamp} {verb : Text}
    {args : List Text} {mode : Mode} {plan : List Step} (hplan : ∀ s ∈ plan, s.Beside d₀.here root)
    (hstart : Tends root (Intent.identifier verb args mode now ++ ".json".toList) d₀ d₀) {b : Bool} {d' : Disk}
    (hrun : (j.track now verb args mode plan).on d₀ = (.ok b, d')) :
    Tends root (Intent.identifier verb args mode now ++ ".json".toList) d₀ d'
      ∧ d'.tree.get? (intentsPlace d₀.here root
        ++ [Intent.identifier verb args mode now ++ ".json".toList]) = none := by
  have hid := Intent.isIdentifier verb args mode now
  rcases track_ok hrun with ⟨i, d₁, d₂, hsave, hfollowed, hdrop⟩
  rcases tends_save (i := Intent.start verb args mode now) horderly hj hid hstart with ⟨e₁, hsave', h₁, -⟩
  rw [hsave] at hsave'
  rcases Prod.mk.inj hsave' with ⟨-, rfl⟩
  rcases match_followed (i := Intent.start verb args mode now) horderly hj hj hid rfl hplan h₁ h₁ (.refl _ _)
    with ⟨i', r, e₂, -, hfollowed', -, hi, h₂, -, -⟩
  rw [hfollowed] at hfollowed'
  rcases Prod.mk.inj hfollowed' with ⟨rfl, hrest⟩
  rcases Prod.mk.inj hrest with ⟨-, rfl⟩
  rw [← hi] at h₂ hid ⊢
  rcases tends_drop horderly hj hid h₂ with ⟨d₃, hdrop', h₃, -, hgone⟩
  rw [hdrop] at hdrop'
  rcases Prod.mk.inj hdrop' with ⟨-, rfl⟩
  exact ⟨h₃, hgone⟩

/-! ### The intents that are pending -/

theorem on_intentIn (now : Timestamp) (p : Path) (d : Disk) : (intentIn? now p).on d
    = match d.opened p with
      | .ok (_, c) => match c.read with
        | .ok t => (.ok (Intent.ofDocument? now t.unifyEndings), d)
        | .error f => (.error (.undecodable f), d)
      | .error _ => (.ok none, d) := by
  rw [intentIn?, on_get_bind]
  cases hopened : d.opened p with
  | error e => rfl
  | ok file =>
      rcases file with ⟨loc, c⟩
      dsimp only
      rw [on_bind, on_readText, hopened]
      dsimp only
      cases c.read <;> rfl

/-- What is looked up for each of some things is the same on two disks if it is the same
    for each of them. -/
theorem on_mapM_congr {α β : Type} {f : α → Job β} {xs : List α} {d e : Disk}
    (h : ∀ x ∈ xs, ∃ r, (f x).on d = (r, d) ∧ (f x).on e = (r, e)) :
    ∃ r, (xs.mapM f).on d = (r, d) ∧ (xs.mapM f).on e = (r, e) := by
  induction xs with
  | nil => exact ⟨.ok [], rfl, rfl⟩
  | cons x xs ih =>
      rcases h x (by simp) with ⟨r, hd, he⟩
      rcases ih fun y hy => h y (by simp [hy]) with ⟨rs, hds, hes⟩
      rw [List.mapM_cons]
      cases r with
      | error f => exact ⟨_, on_bind_error hd, on_bind_error he⟩
      | ok b =>
          rw [on_bind_ok hd, on_bind_ok he]
          cases rs with
          | error f => exact ⟨_, on_bind_error hds, on_bind_error hes⟩
          | ok bs =>
              rw [on_bind_ok hds, on_bind_ok hes]
              exact ⟨_, rfl, rfl⟩

theorem on_pending_of_absent {j : Journal} {now : Timestamp} {d : Disk}
    (h : (isFolder j.folder).on d = (.ok false, d)) : (j.pending now).on d = (.ok [], d) := by
  rw [pending, on_bind_ok h]
  rfl

theorem on_pending_of_folder {j : Journal} {now : Timestamp} {d : Disk}
    (h : (isFolder j.folder).on d = (.ok true, d)) : (j.pending now).on d
      = ((documentsIn d j.folder).mapM (fun name => intentIn? now (j.folder / name))
          >>= fun found => Job.ofExcept (oldestFirst (found.filterMap fun i => i))).on d := by
  rw [pending, on_bind_ok h]
  rfl

/-- Whether the folder of intents is found. -/
theorem isFolder_intents {d : Disk} (hj : j.Set root) (horderly : d₀.Orderly root) (hfirm : d.Firm root)
    (hopen : ∀ ys, ys <+: intentsWay →
      d.tree.get? (spot d.here root ++ ys) = some .folder ∨ d.tree.get? (spot d.here root ++ ys) = none) :
    (isFolder j.folder).on d = (.ok false, d)
      ∨ d.find j.folder = .ok (intentsPlace d.here root) ∧ (isFolder j.folder).on d = (.ok true, d) := by
  have hwalk : unwalkable? (root.below intentsWay) = none :=
    horderly.roomy.near _ (by decide) (by decide) (by decide)
  rw [show j.folder = root.below intentsWay from hj, on_isFolder, look]
  rcases find_open hfirm.found (by decide) (by decide) hwalk fun ns n ms heq => hopen ns ⟨n :: ms, heq.symm⟩
    with ⟨hfound, -⟩ | ⟨hmissing, -⟩
  · rw [hfound]
    dsimp only
    rcases hopen intentsWay (List.prefix_refl _) with hfolder | hnone
    · rw [hfolder]
      exact Or.inr ⟨rfl, rfl⟩
    · rw [hnone]
      exact Or.inl rfl
  · rw [hmissing]
    exact Or.inl rfl

/-- A folder of intents without documents has none that are pending. -/
theorem on_pending_of_empty {now : Timestamp} {d : Disk} (hfound : d.find j.folder = .ok (intentsPlace d.here root))
    (hfolder : (isFolder j.folder).on d = (.ok true, d)) (h : d.tree.namesIn (intentsPlace d.here root) = []) :
    (j.pending now).on d = (.ok [], d) := by
  rw [on_pending_of_folder hfolder, documentsIn, hfound]
  dsimp only
  rw [h]
  rfl

/-- A folder of intents is found where the way to it leads through folders. -/
theorem find_intents {d : Disk} (hj : j.Set root) (horderly : d₀.Orderly root) (hfirm : d.Firm root)
    (hfolders : ∀ ys, ys <+: intentsWay → d.tree.get? (spot d.here root ++ ys) = some .folder) :
    d.find j.folder = .ok (intentsPlace d.here root) ∧ (isFolder j.folder).on d = (.ok true, d) := by
  have hfound := find_straight hfirm.found (show ['.', '.'] ∉ intentsWay by decide)
    (horderly.roomy.near _ (by decide) (by decide) (by decide)) (by decide)
    fun ns n ms heq => hfolders ns ⟨n :: ms, heq.symm⟩
  rw [show j.folder = root.below intentsWay from hj]
  refine ⟨hfound, ?_⟩
  rw [on_isFolder, look_eq_some.mpr ⟨_, hfound, hfolders _ (List.prefix_refl _)⟩]
  rfl

/-- Every other document leads to the file that it led to. -/
theorem opened_of_tends {name n : Text} {d : Disk} (horderly : d₀.Orderly root) (hj : j.Set root)
    (h : Tends root name d₀ d) (hname : Path.IsName n) (hother : n ≠ name)
    (hfolders₀ : ∀ ys, ys <+: intentsWay → d₀.tree.get? (spot d₀.here root ++ ys) = some .folder)
    (hfolders : ∀ ys, ys <+: intentsWay → d.tree.get? (spot d₀.here root ++ ys) = some .folder) :
    d₀.opened (j.folder / n) = d.opened (j.folder / n) := by
  have hpath : j.folder / n = root.below (intentsWay ++ [n]) := by
    rw [Path.div_name hname, show j.folder = root.below intentsWay from hj, Path.below_below]
  have hdots : ['.', '.'] ∉ intentsWay ++ [n] := by
    rw [List.mem_append, List.mem_singleton, not_or]
    exact ⟨by decide, fun heq => hname.2.2.2 heq.symm⟩
  have hstations : ∀ s ∈ way d₀.here (j.folder / n), d₀.tree.get? s = d.tree.get? s := by
    intro s hs
    rw [hpath, way_below, List.mem_append] at hs
    rcases hs with hs | hs
    · rw [way_of_find horderly.found s hs, h.way s (Or.inl hs)]
    · rcases exists_of_mem_stations hs with ⟨ns, m, ms, heq, rfl⟩
      have hns := prefix_of_concat heq
      rw [place_of_names fun hmem => hdots (List.mem_append_left _ (hns.subset hmem)), hfolders₀ ns hns,
        hfolders ns hns]
  have hfind : d₀.find (j.folder / n) = d.find (j.folder / n) := by
    have horigin : d.origin (j.folder / n) = d₀.origin (j.folder / n) := by
      rw [origin, origin, h.here]
    rw [find, find, horigin]
    split
    · rfl
    · exact Tree.walk_congr hstations
  rw [opened, opened, ← hfind]
  split
  · rfl
  · next loc hloc =>
      have hplace : loc = intentsPlace d₀.here root ++ [n] := by
        rw [spot_of_find hloc, hpath, spot_below _ _ hdots, intentsPlace, List.append_assoc]
      rw [hplace, h.others _ own_prefix_document (fun ys hys => document_ne_shelf hys) fun heq =>
        hother (List.singleton_inj.mp (List.append_cancel_left heq))]

/-- The intents that are pending are those that were, when the document is gone. -/
theorem pending_of_tends {name : Text} {d : Disk} (horderly : d₀.Orderly root) (hj : j.Set root)
    (h : Tends root name d₀ d) (hgone : d.tree.get? (intentsPlace d₀.here root ++ [name]) = none)
    (now : Timestamp) : ∃ r, (j.pending now).on d₀ = (r, d₀) ∧ (j.pending now).on d = (r, d) := by
  have hnames : d.tree.namesIn (intentsPlace d₀.here root) = d₀.tree.namesIn (intentsPlace d₀.here root) := by
    rw [← h.names]
    refine (List.filter_eq_self.mpr fun n hn => ?_).symm
    simp only [ne_eq, decide_not, Bool.not_eq_true', decide_eq_false_iff_not]
    rintro rfl
    exact mem_namesIn.mp hn hgone
  have hopen : ∀ ys, ys <+: intentsWay → d.tree.get? (spot d.here root ++ ys) = some .folder
      ∨ d.tree.get? (spot d.here root ++ ys) = none := by
    intro ys hys
    rw [h.here]
    exact (h.shelves ys hys).imp_right And.left
  cases hfolder₀ : d₀.tree.get? (intentsPlace d₀.here root) with
  | none =>
      -- There was no folder of intents, so one that is there now is empty.
      have hno₀ : (isFolder j.folder).on d₀ = (.ok false, d₀) := by
        rcases isFolder_intents hj horderly horderly.firm horderly.shelves with hno | ⟨hfound, hyes⟩
        · exact hno
        · rcases (isFolder_iff hyes).mp rfl with ⟨loc, hloc, hfolder⟩
          rw [hfound] at hloc
          rw [← Except.ok.inj hloc, hfolder₀] at hfolder
          simp at hfolder
      refine ⟨.ok [], on_pending_of_absent hno₀, ?_⟩
      rcases isFolder_intents hj horderly (h.firm horderly) hopen with hno | ⟨hfound, hyes⟩
      · exact on_pending_of_absent hno
      · refine on_pending_of_empty hfound hyes ?_
        rw [h.here, hnames]
        refine List.eq_nil_iff_forall_not_mem.mpr fun n hn => ?_
        have hfolder := horderly.closed _ (mem_namesIn.mp hn)
        rw [List.dropLast_concat, hfolder₀] at hfolder
        simp at hfolder
  | some entry =>
      -- The same documents are there, and hold the same.
      have hfolders₀ : ∀ ys, ys <+: intentsWay → d₀.tree.get? (spot d₀.here root ++ ys) = some .folder :=
        horderly.folder_of_intents ((horderly.shelves _ (List.prefix_refl _)).resolve_right
          (show d₀.tree.get? (intentsPlace d₀.here root) ≠ none by rw [hfolder₀]; simp))
      have hfolders : ∀ ys, ys <+: intentsWay → d.tree.get? (spot d₀.here root ++ ys) = some .folder :=
        fun ys hys => (h.shelves ys hys).resolve_right fun hnone => by
          rw [hfolders₀ ys hys] at hnone
          simp at hnone
      rcases find_intents hj horderly horderly.firm hfolders₀ with ⟨hplace₀, hyes₀⟩
      rcases find_intents hj horderly (h.firm horderly) (by rw [h.here]; exact hfolders) with ⟨hplace, hyes⟩
      have hfound : ∃ r, (((d₀.tree.namesIn (intentsPlace d₀.here root)).filter (Text.endsWith ".json".toList)).mapM
          fun n => intentIn? now (j.folder / n)).on d₀ = (r, d₀)
          ∧ (((d₀.tree.namesIn (intentsPlace d₀.here root)).filter (Text.endsWith ".json".toList)).mapM
            fun n => intentIn? now (j.folder / n)).on d = (r, d) := by
        refine on_mapM_congr fun n hn => ?_
        have hmem := (List.mem_filter.mp hn).1
        have hother : n ≠ name := by
          rintro rfl
          rw [← hnames] at hmem
          exact mem_namesIn.mp hmem hgone
        rw [on_intentIn, on_intentIn,
          ← opened_of_tends horderly hj h (horderly.names n hmem) hother hfolders₀ hfolders]
        split
        · split
          · exact ⟨_, rfl, rfl⟩
          · exact ⟨_, rfl, rfl⟩
        · exact ⟨_, rfl, rfl⟩
      rw [on_pending_of_folder hyes₀, on_pending_of_folder hyes, documentsIn, documentsIn, hplace₀, hplace]
      dsimp only
      rw [h.here, hnames]
      rcases hfound with ⟨r, hr₀, hr⟩
      cases r with
      | error f => exact ⟨_, on_bind_error hr₀, on_bind_error hr⟩
      | ok found =>
          rw [on_bind_ok hr₀, on_bind_ok hr]
          cases oldestFirst (found.filterMap fun i => i) with
          | error f => exact ⟨_, rfl, rfl⟩
          | ok is => exact ⟨_, rfl, rfl⟩

end Journal

end RouteScaffold
