import RouteScaffold.Proofs.Journal.Following

/-!
# Edits Made One After the Other

Some edits lead from one text to another if each can be made of what the one
before has left. When the texts hold no carriage returns, making the edits to
a file is making them to its text.

Edits to one file are all made, or none: what lets the file be exchanged the
first time lets it be exchanged again, since an exchange changes nothing else.

## Main definitions

* `Edit.Leads`: What edits make of a text.

## Theorems

* `on_edit`: What one edit does to a file.
* `followed_edits`: What edits do to a file: all of them or nothing.
-/

namespace RouteScaffold

namespace Text

theorem toLf_of_no_return {t : Text} (h : '\r' ∉ t) : t.toLf = t := by
  induction t with
  | nil => rfl
  | cons c t ih =>
      have hc : c ≠ '\r' := fun hc => h (by simp [hc])
      have ht := ih fun ht => h (by simp [ht])
      unfold toLf
      split
      · next heq => exact absurd (List.cons.inj heq).1 hc
      · next heq =>
          rcases List.cons.inj heq with ⟨rfl, rfl⟩
          rw [ht]
      · next heq => exact absurd heq (by simp)

theorem hasCrlf_of_no_return {t : Text} (h : '\r' ∉ t) : t.hasCrlf = false := by
  induction t with
  | nil => rfl
  | cons c t ih =>
      have hc : c ≠ '\r' := fun hc => h (by simp [hc])
      have ht := ih fun ht => h (by simp [ht])
      unfold hasCrlf
      split
      · next heq => exact absurd (List.cons.inj heq).1 hc
      · next heq =>
          rcases List.cons.inj heq with ⟨rfl, rfl⟩
          exact ht
      · next heq => exact absurd heq (by simp)

end Text

namespace Edit

/-- What some edits make of a text, one after the other, none of the texts
    holding a carriage return. -/
inductive Leads (file : Text) : List Edit → Text → Text → Prop where
  | nil {t : Text} : Leads file [] t t
  | cons {e : Edit} {es : List Edit} {t u v : Text} (apply_eq : e.apply file t = .ok u)
    (plain : '\r' ∉ u) (rest : Leads file es u v) : Leads file (e :: es) t v

theorem written_of_plain {e : Edit} {file t u : Text} (ht : '\r' ∉ t) (hu : '\r' ∉ u)
    (h : e.apply file t = .ok u) : e.written file t = .ok (if u = t then none else some u) := by
  rw [written, Text.toLf_of_no_return ht, h, LineEnding.detect, Text.hasCrlf_of_no_return ht]
  simp only [bind, Except.bind, Bool.false_eq_true, if_false]
  rw [Text.withEnding, Text.toLf_of_no_return hu]
  rfl

end Edit

open Job Disk RouteScaffold.Tree

namespace Job

variable {p : Path} {e : Edit} {d : Disk} {loc : Location} {t u : Text}

/-- What one edit does to a file that is found. -/
theorem on_edit (hop : e.operation ≠ .append) (hfind : d.find p = .ok loc)
    (hfile : d.tree.get? loc = some (.file (.text t))) (ht : '\r' ∉ t) (hu : '\r' ∉ u)
    (happly : e.apply p.text t = .ok u) : (edit p e).on d = if u = t then (.ok false, d) else
      match d.replaceable p with
      | .ok loc => (.ok true, d.made (.put loc (.file (.text u))))
      | .error f => (.error (.system f p.text), d) := by
  have hread := on_readRaw_text hfind hfile
  rw [edit, if_neg hop, editExisting, on_bind_ok hread, on_bind, on_ofExcept,
    Edit.written_of_plain ht hu happly]
  -- An edit that changes nothing does not write.
  by_cases hsame : u = t
  · rw [if_pos hsame, if_pos hsame]
    rfl
  · rw [if_neg hsame, if_neg hsame]
    dsimp only
    rw [on_bind, on_replace]
    cases d.replaceable p <;> rfl

/-- What one edit does to a file that is not found. -/
theorem on_edit_of_unfound (hop : e.operation ≠ .append) {f : SystemError} (hfind : d.find p = .error f) :
    ∃ f', (edit p e).on d = (.error f', d) := by
  have hread : ∃ f', (readRaw p).on d = (.error f', d) := by
    rw [on_readRaw, look, hfind]
    cases f <;> exact ⟨_, rfl⟩
  rcases hread with ⟨f', hf'⟩
  exact ⟨f', by rw [edit, if_neg hop, editExisting, on_bind_error hf']⟩

end Job

namespace Journal

variable {j : Journal} {p : Path} {d : Disk} {edits : List Edit} {t t' : Text}

/-- A write of a text to a file at a location. -/
def Rewrites (loc : Location) (t : Tree) (w : Write) : Prop :=
  t.Admits w ∧ ∃ u, w = .put loc (.file (.text u))

theorem Rewrites.makes {loc : Location} {t : Tree} {w : Write} (h : Rewrites loc t w) : t.Makes w :=
  ⟨h.1, loc, _, h.2.choose_spec⟩

theorem Rewrites.spares {loc l : Location} {t : Tree} {w : Write} (h : Rewrites loc t w) (hne : loc ≠ l) :
    t.Spares l w := by
  rcases h with ⟨hadmits, u, rfl⟩
  exact ⟨hadmits, by simp, fun c heq => hne (Write.put.inj heq).1⟩

theorem take_edit {i : Intent} {e : Edit} {d d' : Disk} {r : Except Fault Bool}
    (h : (Job.edit p e).on d = (r, d')) : (j.take i (.edit p e)).on d = (r.map (i, ·), d') := by
  rw [take, on_bind, h]
  cases r <;> rfl

/-- Edits to a file that can be exchanged are all made. -/
theorem followed_edits_of_replaceable {loc : Location} (hlead : Edit.Leads p.text edits t t')
    (hop : ∀ e ∈ edits, e.operation ≠ .append) (ht : '\r' ∉ t)
    (hfile : d.tree.get? loc = some (.file (.text t))) (hreplace : d.replaceable p = .ok loc) (i : Intent) :
    ∃ c ws, j.followed i (edits.map (.edit p)) d = (i, .ok c, d.after ws)
      ∧ d.tree.Runs (Rewrites loc) ws ∧ (d.tree.applyAll ws).get? loc = some (.file (.text t')) := by
  induction hlead generalizing d with
  | nil => exact ⟨false, [], rfl, trivial, hfile⟩
  | @cons e es t u v happly hu _ ih =>
      have hfind := (replaceable_eq hreplace).1
      have hedit := on_edit (hop e (by simp)) hfind hfile ht hu happly
      have hops : ∀ e ∈ es, e.operation ≠ .append := fun e he => hop e (by simp [he])
      rw [List.map_cons, followed_cons]
      -- An edit that changes nothing leaves the disk as it is for the ones behind it.
      by_cases hsame : u = t
      · rw [if_pos hsame] at hedit
        rw [take_edit hedit]
        rcases ih hops hu (hsame ▸ hfile) hreplace with ⟨c, ws, hrest, hws, hfinal⟩
        dsimp only [Except.map]
        rw [hrest]
        exact ⟨_, ws, rfl, hws, hfinal⟩
      · rw [if_neg hsame, hreplace] at hedit
        rw [take_edit hedit]
        have hadmits : d.tree.Admits (.put loc (.file (.text u))) := (replaceable_eq hreplace).2.1
        have hthere : (d.made (.put loc (.file (.text u)))).tree.get? loc = some (.file (.text u)) := by
          -- The exchanged file can be exchanged again, so the ones behind it go on from here.
          change (d.tree.apply _).get? loc = _
          rw [get?_apply_put hadmits, if_pos rfl]
        have hagain : (d.made (.put loc (.file (.text u)))).replaceable p = .ok loc :=
          replaceable_of_folders hreplace rfl (fun l hl => hadmits.keeps_folder hl)
            (by rw [hthere]; simp)
        rcases ih hops hu hthere hagain with ⟨c, ws, hrest, hws, hfinal⟩
        dsimp only [Except.map]
        rw [hrest]
        exact ⟨_, .put loc (.file (.text u)) :: ws, rfl, ⟨⟨hadmits, u, rfl⟩, hws⟩, hfinal⟩

/-- Edits to a file that cannot be exchanged change nothing. -/
theorem followed_edits_of_stuck {loc : Location} (hlead : Edit.Leads p.text edits t t')
    (hop : ∀ e ∈ edits, e.operation ≠ .append) (ht : '\r' ∉ t) (hfind : d.find p = .ok loc)
    (hfile : d.tree.get? loc = some (.file (.text t))) {f : SystemError}
    (hreplace : d.replaceable p = .error f) (i : Intent) :
    (∃ f', j.followed i (edits.map (.edit p)) d = (i, .error f', d))
      ∨ t' = t ∧ ∃ c, j.followed i (edits.map (.edit p)) d = (i, .ok c, d) := by
  induction hlead with
  | nil => exact Or.inr ⟨rfl, false, rfl⟩
  | @cons e es t u v happly hu _ ih =>
      have hedit := on_edit (hop e (by simp)) hfind hfile ht hu happly
      have hops : ∀ e ∈ es, e.operation ≠ .append := fun e he => hop e (by simp [he])
      rw [List.map_cons, followed_cons]
      -- The first edit that changes anything is the one that is refused.
      by_cases hsame : u = t
      · rw [if_pos hsame] at hedit
        rw [take_edit hedit]
        dsimp only [Except.map]
        subst hsame
        rcases ih hops hu hfile with ⟨f', hrest⟩ | ⟨hv, c, hrest⟩
        · rw [hrest]
          exact Or.inl ⟨f', rfl⟩
        · rw [hrest]
          exact Or.inr ⟨hv, _, rfl⟩
      · rw [if_neg hsame, hreplace] at hedit
        rw [take_edit hedit]
        exact Or.inl ⟨_, rfl⟩

/-- What edits do to a file: all of them are made, or nothing is changed. -/
theorem followed_edits (hlead : Edit.Leads p.text edits t t')
    (hop : ∀ e ∈ edits, e.operation ≠ .append) (ht : '\r' ∉ t)
    (hfile : d.tree.get? (spot d.here p) = some (.file (.text t))) (hne : edits ≠ []) (i : Intent) :
    (∃ f, j.followed i (edits.map (.edit p)) d = (i, .error f, d))
      ∨ d.find p = .ok (spot d.here p) ∧ ∃ c ws, j.followed i (edits.map (.edit p)) d = (i, .ok c, d.after ws)
        ∧ d.tree.Runs (Rewrites (spot d.here p)) ws
        ∧ (d.tree.applyAll ws).get? (spot d.here p) = some (.file (.text t')) := by
  cases hfind : d.find p with
  | error f =>
      left
      cases edits with
      | nil => exact absurd rfl hne
      | cons e es =>
          rcases on_edit_of_unfound (hop e (by simp)) hfind with ⟨f', hf'⟩
          exact ⟨f', by rw [List.map_cons, followed_cons, take_edit hf']; rfl⟩
  | ok loc =>
      have hloc := spot_of_find hfind
      subst hloc
      cases hreplace : d.replaceable p with
      | ok loc =>
          have hloc := spot_of_find (replaceable_eq hreplace).1
          subst hloc
          exact Or.inr ⟨rfl, followed_edits_of_replaceable hlead hop ht hfile hreplace i⟩
      | error f =>
          rcases followed_edits_of_stuck hlead hop ht hfind hfile hreplace i with hfail | ⟨hsame, c, hdone⟩
          · exact Or.inl hfail
          · exact Or.inr ⟨rfl, c, [], hdone, trivial, hsame ▸ hfile⟩

end Journal

end RouteScaffold
