import RouteScaffold.Proofs.Disk.Clear

/-!
# Jobs That Are Stopped

A job may be stopped between any two of its writes, and what it leaves then is
what its first few writes have made of the disk. A job stays within a property
of disks if every disk that it can leave has the property. That is shown part by
part: of a job and what it goes on with, and of a list whose items are gone
through one after the other, where what is still to be said of the disk shrinks
with the list.

What a file system lets be made keeps a tree closed. The same is true of what is
removed with everything in it, since what lies deepest is removed first.

## Main definitions

* `Job.Stops`: A job that is started on one disk and leaves another.
* `Job.Stays`: A job that stays within a property, wherever it is stopped.
* `Job.Fails`: What faults a job can end with.
* `Tree.SameFile`: A location with the same file in two trees, or with none.
* `Tree.Fills`: Writes that make files in certain places only.

## Theorems

* `Stays.stops`: What a job stays within holds wherever it is stopped.
* `stays_bind`, `stays_filterM`: Jobs put together.
* `Runs.closed`, `Runs.sameFile`: What filling leaves as it is.
* `get?_erased_below`, `erasures_leaves`: What is removed is removed deepest
  first.
-/

namespace RouteScaffold

namespace Job

open Disk RouteScaffold.Tree

variable {α β : Type} {I J : Disk → Prop} {d e : Disk}

/-- A job that is started on a disk and stopped, before any of its writes or
    behind the last one, leaves another disk. -/
def Stops (j : Job α) (d e : Disk) : Prop := ∃ ws vs, (j.on d).2 = d.after (ws ++ vs) ∧ e = d.after ws

/-- Wherever a job is stopped, the disk that it leaves has a property. -/
def Stays (I : Disk → Prop) (j : Job α) (d : Disk) : Prop :=
  ∃ ws, (j.on d).2 = d.after ws ∧ ∀ us, us <+: ws → I (d.after us)

theorem Stays.stops {j : Job α} (h : Stays I j d) (hstop : j.Stops d e) : I e := by
  rcases h with ⟨ws, hws, hI⟩
  rcases hstop with ⟨us, vs, hus, rfl⟩
  exact hI us ⟨vs, after_inj (hus.symm.trans hws)⟩

theorem Stays.start {j : Job α} (h : Stays I j d) : I d := by
  rcases h with ⟨ws, -, hI⟩
  exact hI [] List.nil_prefix

theorem Stays.last {j : Job α} (h : Stays I j d) : I (j.on d).2 := by
  rcases h with ⟨ws, hws, hI⟩
  rw [hws]
  exact hI ws (List.prefix_refl _)

theorem Stays.mono {j : Job α} (h : Stays I j d) (himp : ∀ e, I e → J e) : Stays J j d := by
  rcases h with ⟨ws, hws, hI⟩
  exact ⟨ws, hws, fun us hus => himp _ (hI us hus)⟩

theorem stays_unchanged {j : Job α} {r : Except Fault α} (hj : j.on d = (r, d)) (h : I d) : Stays I j d :=
  ⟨[], by rw [hj]; rfl, fun us hus => by
    rw [List.prefix_nil.mp hus]
    exact h⟩

theorem stays_of_looks {j : Job α} (hj : Looks j) (h : I d) : Stays I j d :=
  stays_unchanged (Prod.ext rfl (hj d)) h

theorem stays_once {j : Job α} {r : Except Fault α} {w : Write} (hj : j.on d = (r, d.made w)) (h : I d)
    (hw : I (d.made w)) : Stays I j d :=
  ⟨[w], by rw [hj]; rfl, fun us hus => by
    rcases List.prefix_cons_iff.mp hus with rfl | ⟨vs, rfl, hvs⟩
    · exact h
    · rw [List.prefix_nil.mp hvs]
      exact hw⟩

/-- What every run of some kind stays within, a job with such runs does. -/
theorem Does.stays {R : Tree → Write → Prop} {j : Job α} (h : Does d.here R j)
    (hI : ∀ ws, d.tree.Runs R ws → I (d.after ws)) : Stays I j d := by
  rcases h d rfl with ⟨ws, hws, hruns⟩
  refine ⟨ws, hws, fun us hus => ?_⟩
  rcases hus with ⟨vs, rfl⟩
  exact hI us (Runs.append.mp hruns).1

/-- A job stays within a property if its first part does and what it goes on
    with does. -/
theorem stays_bind {j : Job α} {k : α → Job β} (hj : Stays I j d)
    (hk : ∀ a d', j.on d = (.ok a, d') → Stays I (k a) d') : Stays I (j >>= k) d := by
  rcases hj with ⟨ws, hws, hI⟩
  rcases hr : j.on d with ⟨r, d'⟩
  rw [hr] at hws
  dsimp only at hws
  cases r with
  | error f => exact ⟨ws, by rw [on_bind_error hr, hws], hI⟩
  | ok a =>
      rcases hk a d' hr with ⟨vs, hvs, hI'⟩
      refine ⟨ws ++ vs, by rw [on_bind_ok hr, hvs, hws, after_append], fun us hus => ?_⟩
      -- The job was stopped in the first part, or behind all of it.
      rcases hus with ⟨rest, hrest⟩
      rcases List.append_eq_append_iff.mp hrest with ⟨zs, hws', -⟩ | ⟨zs, rfl, hvs'⟩
      · exact hI us ⟨zs, hws'.symm⟩
      · rw [after_append, ← hws]
        exact hI' zs ⟨rest, hvs'.symm⟩

/-- The faults that a job can end with have a property. -/
def Fails (E : Fault → Prop) (j : Job α) (d : Disk) : Prop := ∀ f d', j.on d = (.error f, d') → E f

theorem fails_bind {E : Fault → Prop} {j : Job α} {k : α → Job β} (hj : Fails E j d)
    (hk : ∀ a d', j.on d = (.ok a, d') → Fails E (k a) d') : Fails E (j >>= k) d := fun f d' h => by
  rcases on_bind_eq_error.mp h with h | ⟨a, d₁, ha, h⟩
  · exact hj f d' h
  · exact hk a d₁ ha f d' h

theorem fails_of_ok {E : Fault → Prop} {j : Job α} {a : α} {d' : Disk} (h : j.on d = (.ok a, d')) :
    Fails E j d := fun f d'' hf => by
  rw [h] at hf
  exact absurd hf (by simp)

/-- Going through a list stays within what is to be said of all of it, if every
    item leaves what is to be said of those behind it. It fails as one of the
    items does. -/
theorem stays_filterM {E : Fault → Prop} {f : α → Job Bool} (T : List α → Disk → Prop) {xs : List α}
    (hmono : ∀ x ∈ xs, ∀ ys d, T ys d → T (x :: ys) d)
    (hstep : ∀ x ∈ xs, ∀ ys d, T (x :: ys) d → Stays (T (x :: ys)) (f x) d ∧ Fails E (f x) d
      ∧ ∀ b d', (f x).on d = (.ok b, d') → T ys d')
    (h : T xs d) : Stays (T xs) (xs.filterM f) d ∧ Fails E (xs.filterM f) d
      ∧ ∀ ys d', (xs.filterM f).on d = (.ok ys, d') → T [] d' := by
  -- The filter carries what it has kept along, which does not matter here.
  have haux : ∀ (ys : List α), (∀ y ∈ ys, y ∈ xs) → ∀ (acc : List α) (d : Disk), T ys d →
      Stays (T ys) (ys.filterAuxM f acc) d ∧ Fails E (ys.filterAuxM f acc) d
        ∧ ∀ zs d', (ys.filterAuxM f acc).on d = (.ok zs, d') → T [] d' := by
    intro ys
    induction ys with
    | nil =>
        intro _ acc d h
        refine ⟨stays_of_looks (looks_pure _) h, fails_of_ok (on_pure acc d), fun zs d' hz => ?_⟩
        rw [(looks_pure acc).ok hz]
        exact h
    | cons y ys ih =>
        intro hmem acc d h
        have hy := hmem y (by simp)
        have hrest := ih fun z hz => hmem z (by simp [hz])
        rcases hstep y hy ys d h with ⟨hstays, hfails, hnext⟩
        refine ⟨?_, ?_, fun zs d' hz => ?_⟩
        -- Behind an item what holds is what is to be said of those behind it, and that is more.
        · exact stays_bind hstays fun b d' hb =>
            (hrest _ d' (hnext b d' hb)).1.mono fun e => hmono y hy ys e
        · exact fails_bind hfails fun b d' hb => (hrest _ d' (hnext b d' hb)).2.1
        · rcases on_bind_eq_ok.mp hz with ⟨b, d₁, hb, hz⟩
          exact (hrest _ d₁ (hnext b d₁ hb)).2.2 zs d' hz
  rcases haux xs (fun x hx => hx) [] d h with ⟨hstays, hfails, hnext⟩
  refine ⟨?_, ?_, fun ys d' hy => ?_⟩
  · exact stays_bind hstays fun ys d' hy => stays_of_looks (looks_pure _) (by
      have hlast := hstays.last
      rwa [hy] at hlast)
  · exact fails_bind hfails fun ys d' _ => fails_of_ok (on_pure _ d')
  · rcases on_bind_eq_ok.mp hy with ⟨zs, d₁, hz, hpure⟩
    rw [(looks_pure _).ok hpure]
    exact hnext zs d₁ hz

/-- Going through a list of one. -/
theorem filterM_singleton_ok {f : α → Job Bool} {x : α} {ys : List α} (h : ([x].filterM f).on d = (.ok ys, e)) :
    ∃ b, (f x).on d = (.ok b, e) := by
  rcases on_bind_eq_ok.mp h with ⟨zs, d₁, haux, hpure⟩
  rcases on_bind_eq_ok.mp haux with ⟨b, d₂, hb, hrest⟩
  rw [(looks_pure _).ok hpure, (looks_pure _).ok hrest]
  exact ⟨b, hb⟩

end Job

namespace Tree

variable {t t' : Tree} {w : Write} {l loc : Location} {ws : List Write} {P : Location → Prop}
  {here : Location}

/-- A location has the same file in two trees, or in neither one. -/
def SameFile (t t' : Tree) (l : Location) : Prop :=
  ∀ c, t'.get? l = some (.file c) ↔ t.get? l = some (.file c)

theorem SameFile.refl (t : Tree) (l : Location) : t.SameFile t l := fun _ => Iff.rfl

theorem SameFile.trans {t'' : Tree} (h : t.SameFile t' l) (h' : t'.SameFile t'' l) :
    t.SameFile t'' l := fun c => (h' c).trans (h c)

theorem sameFile_of_eq (h : t'.get? l = t.get? l) : t.SameFile t' l := fun c => by rw [h]

/-! ### Closed trees -/

theorem Closed.put {entry : Entry} (h : t.Closed) (hadmits : t.Admits (.put loc entry))
    (hparent : t.get? loc.dropLast = some .folder) : (t.apply (.put loc entry)).Closed := by
  intro l hl
  rw [get?_apply_put hadmits] at hl
  split at hl
  · next heq =>
      rw [heq]
      exact hadmits.keeps_folder hparent
  · exact hadmits.keeps_folder (h l hl)

/-- A tree stays closed when something is erased in which there is nothing. -/
theorem Closed.erase (h : t.Closed) (hleaf : ∀ l', l <+: l' → l' ≠ l → t.get? l' = none) :
    (t.apply (.erase l)).Closed := by
  intro l' hl'
  rw [get?_apply_erase] at hl' ⊢
  split at hl'
  · exact absurd rfl hl'
  · next hne =>
      split
      · next heq =>
          -- Something would lie in what is erased.
          have hlonger : l' ≠ l := fun hsame => hne ⟨hsame, heq.2⟩
          have hpre : l <+: l' := by
            rw [← heq.1]
            exact List.dropLast_prefix l'
          exact absurd (hleaf l' hpre hlonger) hl'
      · exact h l' hl'

/-! ### Filling -/

/-- A write that makes something in a folder, and a file only in certain places.
    That it lies in a folder is said of closed trees, and of such in which there
    is a folder where relative paths are walked. -/
def Fills (here : Location) (P : Location → Prop) (t : Tree) (w : Write) : Prop :=
  t.Makes w ∧ (t.Closed → t.get? here = some .folder → t.get? w.place.dropLast = some .folder)
    ∧ ∀ loc c, w = .put loc (.file c) → P loc

theorem Fills.mono {Q : Location → Prop} (h : t.Fills here P w) (himp : ∀ l, P l → Q l) :
    t.Fills here Q w :=
  ⟨h.1, h.2.1, fun loc c hw => himp loc (h.2.2 loc c hw)⟩

theorem Fills.closed (h : t.Fills here P w) (hclosed : t.Closed) (hhere : t.get? here = some .folder) :
    (t.apply w).Closed ∧ (t.apply w).get? here = some .folder := by
  rcases h with ⟨⟨hadmits, loc, entry, rfl⟩, hparent, -⟩
  exact ⟨hclosed.put hadmits (hparent hclosed hhere), hadmits.keeps_folder hhere⟩

theorem Fills.sameFile (h : t.Fills here P w) (hl : ¬P l) : t.SameFile (t.apply w) l := by
  rcases h with ⟨⟨hadmits, loc, entry, rfl⟩, -, hfile⟩
  intro c
  rw [get?_apply_put hadmits]
  split
  · next heq =>
      subst heq
      cases entry with
      | file c' => exact absurd (hfile l c' rfl) hl
      | folder => simp [show t.get? l = none from hadmits]
  · rfl

theorem Runs.makes_of_fills (h : t.Runs (Fills here P) ws) : t.Runs Makes ws := h.mono fun _ _ hw => hw.1

theorem Runs.closed (h : t.Runs (Fills here P) ws) (hclosed : t.Closed)
    (hhere : t.get? here = some .folder) :
    (t.applyAll ws).Closed ∧ (t.applyAll ws).get? here = some .folder :=
  h.preserves (I := fun t => t.Closed ∧ t.get? here = some .folder) ⟨hclosed, hhere⟩
    fun _ _ ht hw => hw.closed ht.1 ht.2

/-- Files are as they were, but where filling makes some. -/
theorem Runs.sameFile (h : t.Runs (Fills here P) ws) (hl : ¬P l) : t.SameFile (t.applyAll ws) l :=
  h.preserves (I := fun t' => t.SameFile t' l) (SameFile.refl t l)
    fun _ _ ht hw => ht.trans (hw.sameFile hl)

/-! ### What is removed -/

theorem placeByDepth_sorted {ls : List Location}
    (h : ls.Pairwise fun a b => b.length ≤ a.length) :
    (placeByDepth loc ls).Pairwise fun a b => b.length ≤ a.length := by
  induction ls with
  | nil => exact List.pairwise_singleton _ _
  | cons x ls ih =>
      rw [List.pairwise_cons] at h
      rw [placeByDepth]
      split
      -- The location comes first, being the deepest.
      · next hle =>
          refine List.pairwise_cons.mpr ⟨fun y hy => ?_, List.pairwise_cons.mpr h⟩
          rcases List.mem_cons.mp hy with rfl | hy
          · exact hle
          · exact (h.1 y hy).trans hle
      · next hlt =>
          -- What stands before it is deeper, and stays first.
          refine List.pairwise_cons.mpr ⟨fun y hy => ?_, ih h.2⟩
          rcases mem_placeByDepth.mp hy with rfl | hy
          · omega
          · exact h.1 y hy

theorem below_sorted (t : Tree) (folder : Location) :
    (t.below folder).Pairwise fun a b => b.length ≤ a.length := by
  rw [below]
  induction (t.entries.map Prod.fst).filter (isBelow folder) with
  | nil => exact List.Pairwise.nil
  | cons x ls ih => exact placeByDepth_sorted ih

/-- What is removed is removed deepest first: when its turn comes, nothing is
    left in it. -/
theorem get?_erased_below {us vs : List Location} (hsplit : t.below loc ++ [loc] = us ++ l :: vs)
    {l' : Location} (hpre : l <+: l') (hne : l' ≠ l) :
    (t.applyAll (us.map .erase)).get? l' = none := by
  rw [get?_applyAll_erase]
  split
  · rfl
  · next hnot =>
      by_contra hthere
      -- What lies below is deeper, so it is erased before.
      have hlonger : l.length < l'.length := by
        have hle := hpre.length_le
        rcases Nat.lt_or_ge l.length l'.length with hlt | hge
        · exact hlt
        · exact absurd (hpre.eq_of_length (by omega)).symm hne
      have hl : l ∈ t.below loc ++ [loc] := by
        rw [hsplit]
        simp
      have hloc : loc <+: l := by
        rcases List.mem_append.mp hl with hl | hl
        · exact (below_of_mem hl).1
        · rw [List.mem_singleton.mp hl]
      have hshort : loc.length ≤ l.length := hloc.length_le
      have hl' : l' ∈ t.below loc := mem_below hthere (hloc.trans hpre) fun heq => by
        rw [← heq] at hlonger
        omega
      have hmem : l' ∈ us ++ l :: vs := by
        rw [← hsplit]
        exact List.mem_append_left _ hl'
      -- The folder itself comes last, being the least deep.
      have hsorted : (us ++ l :: vs).Pairwise fun a b => b.length ≤ a.length := by
        rw [← hsplit, List.pairwise_append]
        refine ⟨below_sorted t loc, List.pairwise_singleton _ _, fun a ha b hb => ?_⟩
        rw [List.mem_singleton.mp hb]
        exact (below_of_mem ha).1.length_le
      -- It would have been erased already, or else stand behind what is less deep.
      rcases List.mem_append.mp hmem with hus | hrest
      · exact hnot ⟨hus, fun hnil => by simp [hnil] at hlonger⟩
      · rcases List.mem_cons.mp hrest with heq | hvs
        · exact hne heq
        · have := (List.pairwise_cons.mp (List.pairwise_append.mp hsorted).2.1).1 l' hvs
          omega

/-- What removing takes away: everything at a location and below it, and when
    the turn of something comes, nothing is left in it. -/
theorem erasures_leaves (hclosed : t.Closed) (loc : Location) :
    ∃ ls, Job.erasures t loc = ls.map .erase ∧ (∀ l ∈ ls, loc <+: l)
      ∧ (∀ l, loc <+: l → t.get? l ≠ none → l ∈ ls)
      ∧ ∀ us l vs, ls = us ++ l :: vs → ∀ l', l <+: l' → l' ≠ l →
        (t.applyAll (us.map .erase)).get? l' = none := by
  -- A folder goes with what is in it; anything else goes alone, having nothing in it.
  rw [Job.erasures]
  split
  · refine ⟨t.below loc ++ [loc], rfl, fun l hl => ?_, fun l hpre hl => ?_,
      fun us l vs hsplit l' hpre hne => get?_erased_below hsplit hpre hne⟩
    · rcases List.mem_append.mp hl with hl | hl
      · exact (below_of_mem hl).1
      · rw [List.mem_singleton.mp hl]
    · by_cases hsame : loc = l
      · simp [hsame]
      · exact List.mem_append_left _ (mem_below hl hpre hsame)
  · next hfile =>
      -- Below what is no folder there is nothing.
      have hnone : ∀ l, loc <+: l → l ≠ loc → t.get? l = none := fun l hpre hne => by
        by_contra hsome
        exact hfile (hclosed.get?_of_prefix hsome hpre (Ne.symm hne))
      refine ⟨[loc], rfl, fun l hl => by rw [List.mem_singleton.mp hl], fun l hpre hl => ?_,
        fun us l vs hsplit l' hpre hne => ?_⟩
      · by_contra hmem
        exact hl (hnone l hpre fun heq => hmem (by simp [heq]))
      · rcases List.cons_eq_append_iff.mp hsplit with ⟨rfl, heq⟩ | ⟨us', rfl, heq⟩
        · rw [List.cons.injEq] at heq
          rw [heq.1] at hpre hne
          exact hnone l' hpre hne
        · exact absurd heq (by simp)

end Tree

namespace Disk

variable {d : Disk} {p : Path} {loc : Location}

/-- What a path leads to lies in a folder, in a closed tree. -/
theorem get?_parent_of_find (h : d.find p = .ok loc) (hclosed : d.tree.Closed)
    (hhere : d.tree.get? d.here = some .folder) : d.tree.get? loc.dropLast = some .folder := by
  refine hclosed.walk_folder ?_ (find_eq h).2
  rw [origin]
  split
  · exact hhere
  · exact Tree.get?_root _

end Disk

namespace Job

open Disk RouteScaffold.Tree

variable {here : Location} {p : Path} {P : Location → Prop}

theorem fills_of_find {d : Disk} {loc : Location} {entry : Entry} (h : d.find p = .ok loc)
    (hadmits : d.tree.Admits (.put loc entry)) (hP : ∀ c, entry = .file c → P loc) :
    d.tree.Fills d.here P (.put loc entry) :=
  ⟨⟨hadmits, loc, entry, rfl⟩, fun hclosed hhere => get?_parent_of_find h hclosed hhere,
    fun loc' c hw => by
      rw [Write.put.injEq] at hw
      exact hw.1 ▸ hP c hw.2⟩

theorem fills_folders (p : Path) : Does here (Fills here P) (folders p) :=
  does_folders fun _ _ _ _ hhere hv => hhere ▸ fills_of_find (vacant_eq hv).1 (admits_vacant hv) (by simp)

theorem fills_writeText {t : Text} (h : unwalkable? p = none → P (spot here p)) :
    Does here (Fills here P) (writeText p t) :=
  does_writeText fun d loc hhere hw => by
    have hfind := (writable_eq hw).1
    subst hhere
    refine fills_of_find hfind (admits_writable hw) fun c _ => ?_
    rw [spot_of_find hfind]
    exact h (find_eq hfind).1

theorem fills_replace {t : Text} (h : unwalkable? p = none → P (spot here p)) :
    Does here (Fills here P) (replace p t) :=
  does_replace fun d loc hhere hr => by
    have hfind := (replaceable_eq hr).1
    subst hhere
    refine fills_of_find hfind (admits_replaceable hr) fun c _ => ?_
    rw [spot_of_find hfind]
    exact h (find_eq hfind).1

theorem fills_newFile {t : Text} (h : unwalkable? p = none → P (spot here p)) :
    Does here (Fills here P) (newFile p t) :=
  does_isThere.bind fun _ => .refuse fun _ => (fills_folders p.parent).bind fun _ => fills_writeText h

end Job

end RouteScaffold
