import RouteScaffold.Proofs.Journal.Footprint

/-!
# Intents That Are Kept

From the first time that it is saved until its steps have all been taken, the intent of
a command has a document. Saving it again puts another document in the place of the old
one, in a single write, and what it learns on the way changes neither its identifier nor
the command that it stands for. So a command whose steps leave that place alone can be
stopped anywhere: before its intent was saved it has touched no file, and behind the
write that drops its intent there is nothing left to do.

What a write may do to the place of a document is one property of writes, and all else
follows from that the steps of a plan have it.

## Main definitions

* `Tree.Renews`: A write that leaves a file alone, or puts another that is as good.
* `Journal.Remembers`: A disk with an intent of some command.

## Theorems

* `Runs.renews`: A file that is only renewed stays as good as it was.
* `renews_save`, `renews_take`: Saving an intent and taking a step renew its document.
* `stays_track`: A command has touched nothing yet, is remembered, or has come to its
  end.
-/

namespace RouteScaffold

open Job Disk RouteScaffold.Tree

namespace Tree

variable {t : Tree} {w : Write} {l : Location} {ws : List Write} {C : Content → Prop}

/-- A write that puts no file in a place but a good one, and does not erase it. -/
def Renews (l : Location) (C : Content → Prop) (t : Tree) (w : Write) : Prop :=
  t.Admits w ∧ w ≠ .erase l ∧ ∀ c, w = .put l (.file c) → C c

theorem Spares.renews (h : t.Spares l w) : t.Renews l C w :=
  ⟨h.1, h.2.1, fun c heq => absurd heq (h.2.2 c)⟩

theorem Renews.keeps (h : t.Renews l C w) (hl : ∃ c, t.get? l = some (.file c) ∧ C c) :
    ∃ c, (t.apply w).get? l = some (.file c) ∧ C c := by
  by_cases hspares : ∀ c, w ≠ .put l (.file c)
  · rcases hl with ⟨c, hc, hC⟩
    exact ⟨c, Spares.keeps ⟨h.1, h.2.1, hspares⟩ hc, hC⟩
  · rcases not_forall.mp hspares with ⟨c, hw⟩
    rw [not_not] at hw
    refine ⟨c, ?_, h.2.2 c hw⟩
    rw [hw] at h ⊢
    rw [get?_apply_put h.1, if_pos rfl]

theorem Runs.renews (h : t.Runs (Renews l C) ws) (hl : ∃ c, t.get? l = some (.file c) ∧ C c) :
    ∃ c, (t.applyAll ws).get? l = some (.file c) ∧ C c :=
  h.preserves hl fun _ _ hc hw => hw.keeps hc

end Tree

namespace Journal

/-- A disk with an intent of the same command as another, under its identifier. -/
def Remembers (j : Journal) (i : Intent) (e : Disk) : Prop :=
  ∃ k : Intent, k.Continues i ∧ e.tree.get? (spot e.here (j.file i.id)) = some (.file (.text k.document))

variable {j : Journal} {here : Location} {i i' : Intent} {d : Disk} {now : Timestamp} {verb : Text}
  {args : List Text} {mode : Mode} {plan : List Step}

/-- The document of an intent of the same command. -/
def Documented (i : Intent) (c : Content) : Prop := ∃ k : Intent, k.Continues i ∧ c = .text k.document

theorem remembers_iff : j.Remembers i d
    ↔ ∃ c, d.tree.get? (spot d.here (j.file i.id)) = some (.file c) ∧ Documented i c := by
  constructor
  · rintro ⟨k, hk, hfile⟩
    exact ⟨_, hfile, k, hk, rfl⟩
  · rintro ⟨_, hfile, k, hk, rfl⟩
    exact ⟨k, hk, hfile⟩

theorem renews_save (hi : i'.Continues i) :
    Does here (Renews (spot here (j.file i.id)) (Documented i)) (j.save i') := by
  refine .ite (fun _ => ?_) fun _ => does_pure _
  refine ((spares_folders j.folder).mono fun _ _ hw => hw.renews).bind fun _ => does_replace fun e loc _ hr => ?_
  refine ⟨admits_replaceable hr, by simp, fun c heq => ⟨i', hi, ?_⟩⟩
  rw [Write.put.injEq, Entry.file.injEq] at heq
  exact heq.2.symm

theorem renews_take {s : Step} (hi : i'.Continues i) (hs : s.Spares here (spot here (j.file i.id))) :
    Does here (Renews (spot here (j.file i.id)) (Documented i)) (j.take i' s) := by
  refine does_take_continuing (fun k hk => renews_save (hk.trans hi))
    (fun p _ => (spares_folders p).mono fun _ _ hw => hw.renews)
    (fun p t h => ?_) (fun p t h => ?_) (fun p f h => ?_) fun p b h => ?_
  · subst h
    exact (spares_newFile hs).mono fun _ _ hw => hw.renews
  · subst h
    exact (spares_writeText hs).mono fun _ _ hw => hw.renews
  · rcases h with rfl | rfl <;> exact (spares_edit hs).mono fun _ _ hw => hw.renews
  · subst h
    exact (spares_remove hs).mono fun _ _ hw => hw.renews

/-- An intent that is remembered stays so through what renews its document. -/
theorem Remembers.after (h : j.Remembers i d) {ws : List Write}
    (hws : d.tree.Runs (Renews (spot d.here (j.file i.id)) (Documented i)) ws) :
    j.Remembers i (d.after ws) := by
  rw [remembers_iff] at h ⊢
  rw [after_here, after_tree]
  exact hws.renews h

theorem Remembers.stays {α : Type} {x : Job α} (h : j.Remembers i d)
    (hx : Does d.here (Renews (spot d.here (j.file i.id)) (Documented i)) x) : Stays (j.Remembers i) x d :=
  hx.stays fun _ hws => h.after hws

theorem remembers_of_save {d' : Disk} (hkeeps : j.keeps = true) (h : (j.save i).on d = (.ok (), d')) :
    j.Remembers i d' := by
  rcases opened_of_save hkeeps h with ⟨loc, hopened⟩
  rcases opened_eq hopened with ⟨hfind, hfile⟩
  refine ⟨i, .refl i, ?_⟩
  rw [← spot_of_find hfind]
  exact hfile

/-- Dropping an intent is a single write, and behind it the command is over. -/
theorem stays_settle (h : j.Remembers i d) (hi : i'.Continues i) (r : Except Fault Bool) :
    Stays (fun e => j.Remembers i e ∨ ∃ b, (j.settle i' r).on d = (.ok b, e)) (j.settle i' r) d := by
  cases r with
  | error f =>
      -- An intent with an error is still the intent of this command.
      have hmarked : (i'.withError f.message).Continues i := ⟨hi.id, hi.verb, hi.args, hi.mode⟩
      exact (h.stays ((renews_save hmarked).bind fun _ => does_fail _)).mono fun _ => Or.inl
  | ok changed =>
      have hsettle : (j.settle i' (.ok changed)).on d = (j.drop i' >>= fun _ => pure changed).on d := rfl
      have hdrop := on_unlinkIfPresent (j.file i'.id) d
      cases hopened : d.opened (j.file i'.id) with
      | ok x =>
          rw [hopened] at hdrop
          have hrun : (j.settle i' (.ok changed)).on d = (.ok changed, d.made (.erase x.1)) := by
            rw [hsettle]
            exact on_bind_ok hdrop
          exact stays_once hrun (Or.inl h) (Or.inr ⟨changed, hrun⟩)
      -- Where there is no document, dropping fails or has nothing to do.
      | error f =>
          rw [hopened] at hdrop
          have hstill : ∃ r, (j.drop i').on d = (r, d) := by
            cases f
            all_goals exact ⟨_, hdrop⟩
          rcases hstill with ⟨r, hr⟩
          cases r with
          | ok u =>
              refine stays_unchanged (r := .ok changed) ?_ (Or.inl h)
              rw [hsettle]
              exact on_bind_ok hr
          | error g =>
              refine stays_unchanged (r := .error g) ?_ (Or.inl h)
              rw [hsettle]
              exact on_bind_error hr

/-- Wherever a command is stopped, it has touched no file but the document of its
    intent, or is remembered, or has come to its end. -/
theorem stays_track (hkeeps : j.keeps = true) (hplan : ∀ s ∈ plan,
      s.Spares d.here (spot d.here (j.file (Intent.identifier verb args mode now)))) :
    Stays (fun e => (∀ l, l ≠ spot d.here (j.file (Intent.identifier verb args mode now)) →
        d.tree.SameFile e.tree l)
      ∨ j.Remembers (Intent.start verb args mode now) e
      ∨ ∃ b, (j.track now verb args mode plan).on d = (.ok b, e)) (j.track now verb args mode plan) d := by
  have hsaves : Does d.here (Confined (· = spot d.here (j.file (Intent.identifier verb args mode now))))
      (j.save (Intent.start verb args mode now)) := confined_save rfl
  have hbegin : Does d.here (Confined (· = spot d.here (j.file (Intent.identifier verb args mode now))))
      (j.begin now verb args mode) := hsaves.bind fun _ => does_pure _
  refine stays_bind (hbegin.stays fun ws hws => Or.inl fun l hl => ?_) fun k d₁ hk => ?_
  · rw [after_tree]
    exact hws.outside hl
  rcases hbegin d rfl with ⟨ws, hws, -⟩
  rw [hk] at hws
  have hhere : d₁.here = d.here := by
    rw [show d₁ = d.after ws from hws, after_here]
  rcases on_bind_eq_ok.mp hk with ⟨u, d₂, hsave, hpure⟩
  rw [on_pure, Prod.mk.injEq, Except.ok.injEq] at hpure
  rcases hpure with ⟨rfl, rfl⟩
  have hremembers := remembers_of_save hkeeps hsave
  -- The steps are followed as one job that does not fail, which ends with how they ended.
  rcases hfollowed : j.followed (Intent.start verb args mode now) plan d₂ with ⟨i', r, d₃⟩
  rcases does_followed_continuing (i := Intent.start verb args mode now)
      (fun s hs i' hi' => renews_take hi' (hplan s hs)) d₂ hhere with ⟨vs, hd₃, hvs, hi'⟩
  rw [hfollowed] at hd₃ hi'
  dsimp only at hd₃ hi'
  have hfollow : (liftM (j.follow (Intent.start verb args mode now) plan) : Job (Intent × Except Fault Bool)).on d₂
      = (.ok (i', r), d₃) := by
    rw [← show ((j.followed (Intent.start verb args mode now) plan d₂).1,
      (j.followed (Intent.start verb args mode now) plan d₂).2.1) = (i', r) by rw [hfollowed],
      ← show (j.followed (Intent.start verb args mode now) plan d₂).2.2 = d₃ by rw [hfollowed]]
    rfl
  rw [← hhere] at hvs
  refine stays_bind (j := liftM (j.follow (Intent.start verb args mode now) plan)) ⟨vs, ?_, fun us hus => ?_⟩
    fun x d₄ hx => ?_
  · rw [hfollow]
    exact hd₃
  · rcases hus with ⟨rest, rfl⟩
    exact Or.inr (Or.inl (hremembers.after (Runs.append.mp hvs).1))
  · rw [hfollow, Prod.mk.injEq, Except.ok.injEq] at hx
    rcases hx with ⟨rfl, rfl⟩
    have hlast : j.Remembers (Intent.start verb args mode now) d₃ := by
      rw [hd₃]
      exact hremembers.after hvs
    refine (stays_settle hlast hi' r).mono fun e he => Or.inr (he.imp_right ?_)
    rintro ⟨b, hb⟩
    refine ⟨b, ?_⟩
    rw [track, on_bind_ok hk]
    exact (on_bind_ok hfollow).trans hb

end Journal

end RouteScaffold
